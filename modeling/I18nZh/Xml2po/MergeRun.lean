import I18nZh.Xml2po.CreditsCorrect
import I18nZh.Xml2po.PotMerge

/-!
# A run that merges

The main program in the mode `merge`, from the file that is read to the document that is
written.
-/

namespace I18nZh
namespace Xml2po

open Po (Text text strip)
open Po.Merge
open DocbookXmlMode

/-- What the end of the run calls of `libxml2`: what `newChild` makes of a content, and a
document as it is written. -/
structure Writer where
  nodeList : Text → List Node
  serializeDocument : Node → Text

section Run

variable (sys : System) (args : Arguments) (m : Merging) (writer : Writer)

/-- What comes behind the loop over the files; without the mode there is nothing to do. -/
def postProcess (lib : Libxml2) (language : Text) (doc : Node) : Except Error Node :=
  if args.docbook then do
    let outtxt ← getTranslation args.options lib m (str getStringForTranslators) false
    postProcessXmlTranslation writer.nodeList doc language outtxt
  else return doc

/-- The run over the one file that there may be, without `-r`. -/
def mainMerge (language filename : Text) : Except Error Text :=
  match sys.parseFile filename with
  | none => .error .cannotOpen
  | some (doc, lib) => do
    let _ ← (
      if args.docbook then preProcessXml sys.images filename doc
      else return [] : Except Error (List Call))
    let (_, doc) ← mergeSerialize args.options lib m [] doc
    let doc ← postProcess args m writer lib language doc
    return writer.serializeDocument doc

variable {sys args m writer}

/-! ## The steps of the run -/

theorem mainMerge_run {filename : Text} {doc doc' : Node} {lib : Libxml2} {s : PyString}
    (hparse : sys.parseFile filename = some (doc, lib))
    (hroot : ∃ c ∈ doc.children, c.type = .element)
    (hmerge : mergeSerialize args.options lib m [] doc = .ok (s, doc')) (language : Text) :
    mainMerge sys args m writer language filename =
      postProcess args m writer lib language doc' >>= fun doc =>
        .ok (writer.serializeDocument doc) := by
  obtain ⟨calls, hcalls⟩ := (preProcessXml_iff sys.images filename).mpr hroot
  rw [mainMerge, hparse]
  simp only
  rw [hcalls, hmerge]
  cases args.docbook <;> rfl

/-- An article or a book is an element of the document. -/
theorem DocbookXmlMode.ArticleDocument.exists_element {doc root : Node} {front rest : List Node}
    (h : ArticleDocument doc front root rest) : ∃ c ∈ doc.children, c.type = .element := by
  refine ⟨root, ?_, h.element⟩
  rw [h.children]
  exact List.mem_append_right _ List.mem_cons_self

theorem merged_append {options : Options} {lib : Libxml2} (ancestors : List Node)
    (before behind : List Node) : merged options lib m ancestors (before ++ behind) =
      merged options lib m ancestors before ++ merged options lib m ancestors behind := by
  induction before with
  | nil => rfl
  | cons child before ih => rw [List.cons_append, merged, ih, merged, List.cons_append]

theorem merged_leaves {options : Options} {lib : Libxml2} (ancestors : List Node)
    {children : List Node} (h : ∀ c ∈ children, c.type ≠ .element) :
    merged options lib m ancestors children = children := by
  induction children with
  | nil => rfl
  | cons child rest ih =>
    rw [List.forall_mem_cons] at h
    rw [merged, mergedOf_leaf h.1, ih h.2]

/-- The root is an article or a book still, unless it is an element with a message. -/
theorem DocbookXmlMode.ArticleDocument.merged {doc root : Node} {front rest : List Node}
    (h : ArticleDocument doc front root rest) {options : Options} {lib : Libxml2}
    (hworth : worthOutputting options [doc] root = false) :
    ArticleDocument (mergedDocument options lib m doc) front (mergedOf options lib m [doc] root)
      (Xml2po.merged options lib m [doc] rest) := by
  have hroot : mergedOf options lib m [doc] root =
      .mk root.info (Xml2po.merged options lib m (root :: [doc]) root.children) := by
    rw [mergedOf_element h.element, if_neg (by rw [hworth]; exact Bool.false_ne_true)]
  refine ⟨?_, h.front, ?_, ?_⟩
  · have hchildren : (mergedDocument options lib m doc).children =
        Xml2po.merged options lib m [doc] doc.children := rfl
    rw [hchildren, h.children, merged_append, merged_leaves _ h.front, Xml2po.merged]
  · rw [hroot]
    exact h.element
  · rw [hroot]
    exact h.article

/-! ## Without translations -/

theorem postProcess_untranslated (hdocbook : args.docbook = true) {lib : Libxml2}
    (h : m.Untranslated args.options lib) {doc root : Node} {front rest : List Node}
    (harticle : ArticleDocument doc front root rest) (language : Text) :
    postProcess args m writer lib language doc =
      .ok (.mk doc.info (front ++ root.setProp (text "lang") language :: rest)) := by
  have hget : ∃ found, getTranslation args.options lib m (str creditsCall.text)
      creditsCall.spacepreserve = .ok found ∧ _ ∧ _ := getTranslation_bytes creditsCall
  obtain ⟨found, hfound, hanswer, _⟩ := hget
  have htemplate := h.template creditsCall
  rw [Call.template, ← hanswer] at htemplate
  have hnone : ∀ s ∈ found, s.chars = getStringForTranslators ∨ s.chars = [] := by
    intro s hs
    obtain rfl : found = some s := hs
    by_cases hempty : s.chars = []
    · exact Or.inr hempty
    · rw [Option.filter_some, if_pos (decide_eq_true hempty)] at htemplate
      exact Or.inl htemplate
  have hrun : getTranslation args.options lib m (str getStringForTranslators) false =
      .ok found := hfound
  rw [postProcess, if_pos hdocbook, hrun, Po.ok_bind, postProcess_silent harticle language hnone]

theorem unplaced_setProp (node : Node) (name value : Text) :
    (node.setProp name value).unplaced = node.unplaced.setProp name value := by
  obtain ⟨info, children⟩ := node
  rfl

/-- An article is an article wherever it stands. -/
theorem DocbookXmlMode.ArticleDocument.of_unplaced {doc doc' root : Node} {front rest : List Node}
    (h : ArticleDocument doc front root rest) (hsame : doc'.unplaced = doc.unplaced) :
    ∃ front' root' rest', ArticleDocument doc' front' root' rest' ∧
      unplacedAll front' = unplacedAll front ∧ root'.unplaced = root.unplaced ∧
      unplacedAll rest' = unplacedAll rest := by
  have htype : ∀ {a b : Node}, a.unplaced = b.unplaced → a.type = b.type ∧ a.name = b.name := by
    rintro ⟨info, children⟩ ⟨info', children'⟩ hab
    rw [Node.unplaced, Node.unplaced, Node.mk.injEq, Info.mk.injEq] at hab
    exact ⟨hab.1.1, hab.1.2.1⟩
  have hchildren : doc'.children.map Node.unplaced =
      front.map Node.unplaced ++ root.unplaced :: rest.map Node.unplaced := by
    rw [← unplacedAll_eq_map, ← unplaced_children, hsame, unplaced_children, h.children,
      unplacedAll_eq_map, List.map_append, List.map_cons]
  obtain ⟨front', back, hback, hfront', hrest'⟩ := List.map_eq_append_iff.mp hchildren
  obtain ⟨root', rest', rfl, hroot', hrest'⟩ := List.map_eq_cons_iff.mp hrest'
  refine ⟨front', root', rest', ⟨hback, ?_, ?_, ?_⟩, ?_, hroot', ?_⟩
  · intro c hc
    have hmem := List.mem_map_of_mem (f := Node.unplaced) hc
    rw [hfront'] at hmem
    obtain ⟨d, hd, hdc⟩ := List.mem_map.mp hmem
    rw [← (htype hdc).1]
    exact h.front d hd
  · rw [(htype hroot').1]
    exact h.element
  · rw [isArticle, (htype hroot').2]
    exact h.article
  · rw [unplacedAll_eq_map, unplacedAll_eq_map, hfront']
  · rw [unplacedAll_eq_map, unplacedAll_eq_map, hrest']

/-- A catalogue in which nothing is translated gives the document back, with the language
as the only change. -/
theorem mainMerge_untranslated (hdocbook : args.docbook = true) {filename : Text} {doc : Node}
    {lib : Libxml2} (hparse : sys.parseFile filename = some (doc, lib)) (hm : m.Proper lib)
    (h : m.Untranslated args.options lib) (hdoc : ProperDocument args.options doc)
    (hplain : PlainDocument args.options doc)
    (hroot : ∀ c ∈ doc.children, worthOutputting args.options [doc] c = true →
      isAscii (startTag args.options lib c) = true)
    (hapart : ∀ n ∈ forest doc.children, ApartNode args.options lib n)
    (hreads : ReadsBack args.options lib m (reported args.options [doc] doc.children))
    (hextracts : ∃ x, doSerialize args.options lib [] [] doc = .ok x) {front rest : List Node}
    {root : Node} (harticle : ArticleDocument doc front root rest) (language : Text) :
    ∃ doc', mainMerge sys args m writer language filename =
        .ok (writer.serializeDocument doc') ∧
      doc'.unplaced =
        (Node.mk doc.info (front ++ root.setProp (text "lang") language :: rest)).unplaced := by
  have hextract := extractable_of_extracts (options_sound args) hdoc hplain hextracts
  obtain ⟨s, hs⟩ : ∃ s, mergeSerialize args.options lib m [] doc = _ :=
    mergeSerialize_document hm (options_sound args) hdoc hplain hroot hextract
  have hsame : (mergedDocument args.options lib m doc).unplaced = doc.unplaced :=
    mergedDocument_untranslated h hapart hreads hextract
  obtain ⟨front', root', rest', harticle', hfront, hroot', hrest⟩ := harticle.of_unplaced hsame
  refine ⟨.mk (mergedDocument args.options lib m doc).info
    (front' ++ root'.setProp (text "lang") language :: rest'), ?_, ?_⟩
  · rw [mainMerge_run hparse harticle.exists_element hs,
      postProcess_untranslated hdocbook h harticle']
    rfl
  · rw [mergedDocument]
    apply unplaced_mk
    rw [unplacedAll_eq_map, unplacedAll_eq_map] at hfront hrest
    rw [unplacedAll_eq_map, unplacedAll_eq_map, List.map_append, List.map_append, List.map_cons,
      List.map_cons, hfront, hrest, unplaced_setProp, unplaced_setProp, hroot']

/-! ## With the translations of a POT -/

/-- `translator-credits` is normalized to itself. -/
def CreditsPlain (options : Options) (lib : Libxml2) : Prop :=
  normalizeString options lib getStringForTranslators true = getStringForTranslators

theorem getTranslation_credits {options : Options} {lib : Libxml2}
    (h : CreditsPlain options lib) :
    getTranslation options lib m (str getStringForTranslators) false =
      .ok ((m.ugettext getStringForTranslators).map fun res => ⟨true, res⟩) := by
  have hsame : normalizeString options lib getStringForTranslators (!false) =
      getStringForTranslators := h
  have hne : strip (str getStringForTranslators).chars ≠ [] := by decide
  rw [getTranslation, normalized_bytes, hsame]
  show (if strip (str getStringForTranslators).chars = [] then _ else _) = _
  rw [if_neg hne]
  rfl

/-- The message for the translators is one of the messages of a run. -/
theorem credits_said (hproper : sys.Proper args) (hdocbook : args.docbook = true) {out : Text}
    (h : main sys args = .ok out) {filename : Text} (hfile : filename ∈ args.files)
    (hcredits : ∀ f ∈ args.files, ∀ x ∈ sys.parseFile f, CreditsPlain args.options x.2) :
    ∃ o ∈ saidAll sys args, o.t = escapePoString getStringForTranslators := by
  rw [main] at h
  obtain ⟨_, hfiles, _⟩ := exists_of_bind h
  obtain ⟨last, hlast⟩ : ∃ last, args.files.getLast? = some last :=
    ⟨_, List.getLast?_eq_getLast_of_ne_nil (List.ne_nil_of_mem hfile)⟩
  have hmem := List.mem_of_getLast? hlast
  obtain ⟨calls, lib, hread⟩ := readFiles_ok hfiles last hmem
  obtain ⟨doc, _, hparse, _⟩ := readCalls_spec hproper hmem hread
  have hplain : normalizeString args.options lib getStringForTranslators true =
      getStringForTranslators := hcredits last hmem (doc, lib) hparse
  have hne : strip creditsCall.text ≠ [] := by decide
  have hlib : libOf sys args last = some lib := by
    rw [libOf, hread]
  have hsaid : saidCredits sys args =
      (said (normalizeString args.options lib) last creditsCall).toList := by
    rw [saidCredits, hlast]
    simp only
    rw [hlib]
    exact if_pos hdocbook
  obtain ⟨o, ho⟩ : ∃ o, said (normalizeString args.options lib) last creditsCall = some o :=
    ⟨_, if_pos hne⟩
  rw [ho] at hsaid
  refine ⟨o, List.mem_append_right _ ?_, ?_⟩
  · rw [hsaid]
    exact List.mem_singleton_self o
  · rw [(said_ok ho).2]
    exact congrArg escapePoString hplain

theorem credits_translated (hproper : sys.Proper args) (hdocbook : args.docbook = true)
    (horig : args.origxml = []) {out : Text} (h : main sys args = .ok out)
    (hcatalogue : m.Translates out) {filename : Text} (hfile : filename ∈ args.files)
    (hcredits : ∀ f ∈ args.files, ∀ x ∈ sys.parseFile f, CreditsPlain args.options x.2) :
    ∃ t, t ≠ [] ∧ m.ugettext getStringForTranslators = some t := by
  obtain ⟨o, ho, hot⟩ := credits_said hproper hdocbook h hfile hcredits
  obtain ⟨msg, hmsg, rfl⟩ := main_catalogue hproper.empty horig h
  obtain ⟨t, hne, ht⟩ := hcatalogue _ (potBlock_mem hproper hmsg ho) _ rfl
  rw [hot, unquote_escape] at ht
  exact ⟨t, hne, ht⟩

/-- Merged with a catalogue that translates the POT, a document becomes the translated
document with the language set, and its translators are the lines of the translation that
the catalogue has for them. -/
theorem mainMerge_translates (hproper : sys.Proper args) (hdocbook : args.docbook = true)
    (horig : args.origxml = []) {out : Text} (h : main sys args = .ok out)
    (hcatalogue : m.Translates out) {filename : Text} (hfilename : filename ∈ args.filenames)
    {doc : Node} {lib : Libxml2} (hparse : sys.parseFile filename = some (doc, lib))
    (hm : m.Proper lib) (hplain : PlainDocument args.options doc)
    (hroot : ∀ c ∈ doc.children, worthOutputting args.options [doc] c = true →
      isAscii (startTag args.options lib c) = true)
    (hcredits : ∀ f ∈ args.files, ∀ x ∈ sys.parseFile f, CreditsPlain args.options x.2)
    {front rest : List Node} {root : Node} (harticle : ArticleDocument doc front root rest)
    (hworth : worthOutputting args.options [doc] root = false) (language : Text) :
    ∃ t root', m.ugettext getStringForTranslators = some t ∧ t ≠ [] ∧
      mainMerge sys args m writer language filename = .ok (writer.serializeDocument
        (.mk doc.info (front ++ root' :: merged args.options lib m [doc] rest))) ∧
      Credited (copiesFor writer.nodeList t)
        ((mergedOf args.options lib m [doc] root).setProp (text "lang") language) root' := by
  have hfile : filename ∈ args.files := by
    rw [files_eq horig]
    exact List.mem_reverse.mpr hfilename
  obtain ⟨hdoc, _⟩ := hproper.document filename hfile (doc, lib) hparse
  obtain ⟨hextracts, _⟩ := main_extracts hproper h hfile hparse
  obtain ⟨s, hs⟩ : ∃ s, mergeSerialize args.options lib m [] doc = _ :=
    mergeSerialize_document hm (options_sound args) hdoc hplain hroot
      (extractable_of_extracts (options_sound args) hdoc hplain hextracts)
  obtain ⟨t, hne, ht⟩ := credits_translated hproper hdocbook horig h hcatalogue hfile hcredits
  have hmerged : ArticleDocument (mergedDocument args.options lib m doc) front _ _ :=
    harticle.merged hworth
  obtain ⟨root', hroot', hcredited⟩ : ∃ root', addTranslators writer.nodeList (some ⟨true, t⟩)
      ((mergedOf args.options lib m [doc] root).setProp (text "lang") language) = .ok root' ∧ _ :=
    addTranslators_any hne
  refine ⟨t, root', ht, hne, ?_, hcredited⟩
  rw [mainMerge_run hparse harticle.exists_element hs, postProcess, if_pos hdocbook,
    getTranslation_credits (hcredits filename hfile _ hparse), ht, Po.ok_bind, Option.map_some,
    postProcess_article hmerged, hroot']
  rfl

end Run

/-! ## The book -/

def plainWriter : Writer :=
  ⟨plainNodes, fun doc => plain bookArguments.options plainText [] doc.children⟩

theorem article_listing : ∃ root, ArticleDocument listing [] root [] ∧
    worthOutputting bookArguments.options [listing] root = false := by
  refine ⟨_, ⟨rfl, ?_, rfl, rfl⟩, rfl⟩
  exact fun _ hc => absurd hc List.not_mem_nil

theorem root_book : ∀ c ∈ listing.children,
    worthOutputting bookArguments.options [listing] c = true →
      isAscii (startTag bookArguments.options plainText c) = true := by decide

theorem plain_book : PlainDocument bookArguments.options listing := plain_listing

theorem untranslated_book : emptyCatalogue.Untranslated bookArguments.options plainText where
  ugettext _ := rfl
  mark := rfl
  blank _ _ := Or.inr rfl

theorem readsBack_book : ReadsBack bookArguments.options plainText emptyCatalogue
    (reported bookArguments.options [listing] listing.children) := by
  have hthree : reported bookArguments.options [listing] listing.children = [_, _, _] := rfl
  intro p hp
  rw [hthree] at hp
  rcases List.mem_cons.mp hp with rfl | hp
  · exact ⟨_, rfl, rfl⟩
  rcases List.mem_cons.mp hp with rfl | hp
  · exact ⟨_, rfl, rfl⟩
  rw [List.mem_singleton.mp hp]
  exact ⟨_, rfl, rfl⟩

theorem mainMerge_untranslated_book : ∃ root doc', listing.children = [root] ∧
    mainMerge shelf bookArguments emptyCatalogue plainWriter (text "de") (text "book.xml") =
      .ok (plainWriter.serializeDocument doc') ∧
    doc'.unplaced =
      (Node.mk listing.info [root.setProp (text "lang") (text "de")]).unplaced := by
  obtain ⟨root, harticle, _⟩ := article_listing
  have hproper := (proper_shelf.document (text "book.xml") (by decide) (listing, plainText) rfl).1
  obtain ⟨doc', hrun, hsame⟩ : ∃ doc', mainMerge shelf bookArguments emptyCatalogue plainWriter
      (text "de") (text "book.xml") = .ok (plainWriter.serializeDocument doc') ∧ _ :=
    mainMerge_untranslated rfl rfl proper_emptyCatalogue untranslated_book hproper plain_book
      root_book (by decide) readsBack_book ⟨_, rfl⟩ harticle (text "de")
  exact ⟨root, doc', harticle.children, hrun, hsame⟩

theorem mainMerge_translates_shelf : ∃ out root t root', main shelf bookArguments = .ok out ∧
    listing.children = [root] ∧ fullGerman.ugettext getStringForTranslators = some t ∧ t ≠ [] ∧
    mainMerge shelf bookArguments fullGerman plainWriter (text "de") (text "book.xml") =
      .ok (plainWriter.serializeDocument (.mk listing.info [root'])) ∧
    Credited (copiesFor plainWriter.nodeList t)
      ((mergedOf bookArguments.options plainText fullGerman [listing] root).setProp (text "lang")
        (text "de")) root' := by
  obtain ⟨out, hrun⟩ := shelf_runs
  obtain ⟨msg, hmsg, hout⟩ := main_catalogue proper_shelf.empty rfl hrun
  obtain ⟨root, harticle, hworth⟩ := article_listing
  have hparse : ∀ f ∈ bookArguments.files, ∀ x ∈ shelf.parseFile f,
      CreditsPlain bookArguments.options x.2 := by
    intro f hf x hx
    have hbook : f = text "book.xml" := List.mem_singleton.mp hf
    rw [hbook] at hx
    cases hx
    rfl
  obtain ⟨t, root', hrest⟩ := mainMerge_translates proper_shelf rfl rfl hrun
    (hout ▸ translates_fullGerman hmsg) List.mem_cons_self rfl proper_fullGerman plain_book
    root_book hparse harticle hworth (text "de")
  exact ⟨out, root, t, root', hrun, harticle.children, hrest⟩

end Xml2po
end I18nZh
