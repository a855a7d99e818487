import I18nZh.Xml2po.Credits
import I18nZh.Xml2po.Messages

/-!
# Where translators are put

The copyrights that are added to a document stand in the order of the translators behind
those that are there, and nothing else of the document is changed but its language.
-/

namespace I18nZh
namespace Xml2po
namespace DocbookXmlMode

open Po (Text text isSpace)

/-! ## Behind the last copyright -/

/-- The copyrights end with `front`; without a copyright there is nothing behind it. -/
structure CopyrightsEnd (front back : List Node) : Prop where
  front : (∃ init last, front = init ++ [last] ∧ last.name = text "copyright") ∨
    (back = [] ∧ ∀ c ∈ front, c.name ≠ text "copyright")
  back : ∀ c ∈ back, c.name ≠ text "copyright"

theorem rdropWhile_append_pos {α : Type} {p : α → Bool} {back : List α}
    (h : ∀ x ∈ back, p x = true) (front : List α) :
    (front ++ back).rdropWhile p = front.rdropWhile p ∧
    (front ++ back).rtakeWhile p = front.rtakeWhile p ++ back := by
  induction back using List.reverseRecOn with
  | nil => exact ⟨by rw [List.append_nil], by rw [List.append_nil, List.append_nil]⟩
  | append_singleton back x ih =>
    have hx : p x = true := h x (List.mem_append_right _ List.mem_cons_self)
    obtain ⟨hdrop, htake⟩ := ih fun y hy => h y (List.mem_append_left _ hy)
    rw [← List.append_assoc, List.rdropWhile_concat_pos p _ x hx,
      List.rtakeWhile_concat_pos p _ x hx, hdrop, htake, List.append_assoc]
    exact ⟨rfl, rfl⟩

theorem exists_copyrightsEnd (children : List Node) :
    ∃ front back, children = front ++ back ∧ CopyrightsEnd front back := by
  induction children using List.reverseRecOn with
  | nil => exact ⟨[], [], rfl, Or.inr ⟨rfl, fun _ hc => absurd hc List.not_mem_nil⟩,
      fun _ hc => absurd hc List.not_mem_nil⟩
  | append_singleton children child ih =>
    by_cases hname : child.name = text "copyright"
    · exact ⟨children ++ [child], [], (List.append_nil _).symm, Or.inl ⟨_, _, rfl, hname⟩,
        fun _ hc => absurd hc List.not_mem_nil⟩
    · obtain ⟨front, back, rfl, hfront, hback⟩ := ih
      rcases hfront with hlast | ⟨rfl, hnone⟩
      · refine ⟨front, back ++ [child], List.append_assoc _ _ _, Or.inl hlast, ?_⟩
        intro c hc
        rcases List.mem_append.mp hc with hc | hc
        · exact hback c hc
        · exact List.mem_singleton.mp hc ▸ hname
      · refine ⟨front ++ [child], [], by rw [List.append_nil, List.append_nil],
          Or.inr ⟨rfl, ?_⟩, fun _ hc => absurd hc List.not_mem_nil⟩
        intro c hc
        rcases List.mem_append.mp hc with hc | hc
        · exact hnone c hc
        · exact List.mem_singleton.mp hc ▸ hname

theorem addCopyright_behind {front back : List Node} (h : CopyrightsEnd front back)
    (copy : Node) : addCopyright (front ++ back) copy = front ++ copy :: back := by
  have hback : ∀ c ∈ back, decide (c.name ≠ text "copyright") = true :=
    fun c hc => decide_eq_true (h.back c hc)
  obtain ⟨hdrop, htake⟩ := rdropWhile_append_pos hback front
  rw [addCopyright, hdrop, htake]
  rcases h.front with ⟨init, last, rfl, hname⟩ | ⟨rfl, hnone⟩
  · have hlast : ¬decide (last.name ≠ text "copyright") = true := by simpa using hname
    rw [List.rdropWhile_concat_neg _ _ last hlast, List.rtakeWhile_concat_neg _ _ last hlast]
    cases init with
    | nil => rfl
    | cons c init => rfl
  · have hnil : front.rdropWhile (fun c => decide (c.name ≠ text "copyright")) = [] :=
      List.rdropWhile_eq_nil_iff.mpr fun c hc => decide_eq_true (hnone c hc)
    rw [hnil, List.append_nil]

theorem CopyrightsEnd.add {front back : List Node} (h : CopyrightsEnd front back) {copy : Node}
    (hname : copy.name = text "copyright") : CopyrightsEnd (front ++ [copy]) back :=
  ⟨Or.inl ⟨front, copy, rfl, hname⟩, h.back⟩

/-- The nodes stand behind the copyrights in the order in which they are put there. -/
theorem foldl_addCopyright : ∀ {copies front back : List Node}, CopyrightsEnd front back →
    (∀ copy ∈ copies, copy.name = text "copyright") →
    copies.foldl addCopyright (front ++ back) = front ++ copies ++ back := by
  intro copies
  induction copies with
  | nil =>
    intro front back _ _
    rw [List.foldl_nil, List.append_nil]
  | cons copy rest ih =>
    intro front back h hnames
    rw [List.forall_mem_cons] at hnames
    have hrest := ih (h.add hnames.1) hnames.2
    rw [List.foldl_cons, addCopyright_behind h, List.append_cons front copy back, hrest,
      ← List.append_cons front copy rest]

/-! ## The lines -/

def lineCredit (line : Text) : Option Credit := matchCredit (stripString true line)

/-- What the lines of a string say. -/
def credits (s : Text) : List Credit := (s.splitOn '\n').filterMap lineCredit

def Credit.node (nodeList : Text → List Node) (credit : Credit) : Node :=
  newNode (text "copyright")
    ((if credit.years ≠ [] then [newNode (text "year") (nodeList credit.years)] else []) ++
      [newNode (text "holder") (nodeList credit.holder)])

section Lines

variable {nodeList : Text → List Node}

theorem copyright_unicode (credit : Credit) :
    credit.copyright nodeList true = .ok (credit.node nodeList) := by
  rw [Credit.copyright, Credit.node]
  split_ifs <;> rfl

theorem foldlM_addTranslator (lines : List Text) : ∀ children : List Node,
    lines.foldlM (addTranslator nodeList true) children =
      .ok (((lines.filterMap lineCredit).map (Credit.node nodeList)).foldl addCopyright
        children) := by
  induction lines with
  | nil => exact fun _ => rfl
  | cons line rest ih =>
    intro children
    rw [List.foldlM_cons, addTranslator, ← lineCredit]
    cases hmatch : lineCredit line with
    | none =>
      rw [List.filterMap_cons_none hmatch]
      exact ih children
    | some credit =>
      rw [List.filterMap_cons_some hmatch, List.map_cons, List.foldl_cons]
      simp only
      rw [copyright_unicode, Po.ok_bind]
      exact ih _

/-- Each line that is read as a credit makes a copyright behind the ones before. -/
theorem translators_added {front back : List Node} (h : CopyrightsEnd front back) (s : Text) :
    (s.splitOn '\n').foldlM (addTranslator nodeList true) (front ++ back) =
      .ok (front ++ (credits s).map (Credit.node nodeList) ++ back) := by
  have hnames : ∀ copy ∈ (credits s).map (Credit.node nodeList),
      copy.name = text "copyright" := by
    intro copy hcopy
    obtain ⟨credit, _, rfl⟩ := List.mem_map.mp hcopy
    rfl
  rw [foldlM_addTranslator, ← foldl_addCopyright h hnames]
  rfl

end Lines

/-! ## The place -/

mutual

/-- All nodes, the parents first. -/
def preorder (node : Node) : List Node :=
  match node with
  | .mk info children => .mk info children :: preorders children

def preorders (children : List Node) : List Node :=
  match children with
  | [] => []
  | child :: rest => preorder child ++ preorders rest

end

/-- The node that is found is the first one, and it is found where it stands. -/
theorem findArticleinfo_first :
    (∀ (node : Node) (frames : List Frame),
      (findArticleinfo frames node).map Prod.snd = (preorder node).find? isArticleinfo ∧
      ∀ frames' ai, findArticleinfo frames node = some (frames', ai) →
        plug frames' ai = plug frames node) ∧
    ∀ (children : List Node) (frames : List Frame) (info : Info) (done : List Node),
      (findInChildren frames info done children).map Prod.snd =
        (preorders children).find? isArticleinfo ∧
      ∀ frames' ai, findInChildren frames info done children = some (frames', ai) →
        plug frames' ai = plug frames (.mk info (done ++ children)) := by
  apply Node.both
  case mk =>
    intro info children ih frames
    rw [findArticleinfo, preorder]
    cases hname : isArticleinfo (.mk info children) with
    | true =>
      rw [if_pos rfl, List.find?_cons_of_pos hname]
      refine ⟨rfl, ?_⟩
      intro frames' ai h
      cases h
      rfl
    | false =>
      rw [if_neg Bool.false_ne_true,
        List.find?_cons_of_neg (by rw [hname]; exact Bool.false_ne_true)]
      exact ih frames info []
  case nil =>
    intro frames info done
    refine ⟨rfl, ?_⟩
    intro frames' ai h
    cases h
  case cons =>
    intro child rest ihchild ihrest frames info done
    obtain ⟨hfind, hplug⟩ := ihchild (⟨info, done, rest⟩ :: frames)
    rw [findInChildren, preorders, List.find?_append]
    cases hchild : findArticleinfo (⟨info, done, rest⟩ :: frames) child with
    | some ret =>
      rw [hchild] at hfind
      refine ⟨by rw [← hfind]; rfl, ?_⟩
      intro frames' ai h
      obtain rfl := Option.some.inj h
      exact hplug frames' ai hchild
    | none =>
      rw [hchild] at hfind
      obtain ⟨hrest, hplugs⟩ := ihrest frames info (done ++ [child])
      rw [← hfind]
      refine ⟨hrest, ?_⟩
      intro frames' ai h
      rw [hplugs frames' ai h, List.append_assoc]
      rfl

theorem preorders_append (before behind : List Node) :
    preorders (before ++ behind) = preorders before ++ preorders behind := by
  induction before with
  | nil => rfl
  | cons child before ih => rw [List.cons_append, preorders, ih, preorders, List.append_assoc]

/-- Neither the parents of a place nor what stands in front of it is information about the
document. -/
def FirstPlace (frames : List Frame) : Prop :=
  ∀ frame ∈ frames, isArticleinfo (.mk frame.info []) = false ∧
    ∀ node ∈ preorders frame.before, isArticleinfo node = false

theorem findArticleinfo_place :
    (∀ (node : Node) (frames : List Frame), FirstPlace frames →
      ∀ frames' ai, findArticleinfo frames node = some (frames', ai) → FirstPlace frames') ∧
    ∀ (children : List Node) (frames : List Frame) (info : Info) (done : List Node),
      FirstPlace frames → isArticleinfo (.mk info []) = false →
      (∀ node ∈ preorders done, isArticleinfo node = false) →
      ∀ frames' ai, findInChildren frames info done children = some (frames', ai) →
        FirstPlace frames' := by
  apply Node.both
  case mk =>
    intro info children ih frames hframes frames' ai h
    rw [findArticleinfo] at h
    cases hname : isArticleinfo (.mk info children) with
    | true =>
      rw [if_pos hname] at h
      cases h
      exact hframes
    | false =>
      rw [if_neg (by rw [hname]; exact Bool.false_ne_true)] at h
      exact ih frames info [] hframes hname (fun _ hnode => absurd hnode List.not_mem_nil)
        frames' ai h
  case nil =>
    intro frames info done _ _ _ frames' ai h
    cases h
  case cons =>
    intro child rest ihchild ihrest frames info done hframes hinfo hdone frames' ai h
    rw [findInChildren] at h
    cases hchild : findArticleinfo (⟨info, done, rest⟩ :: frames) child with
    | some ret =>
      rw [hchild] at h
      obtain rfl := Option.some.inj h
      exact ihchild _ (List.forall_mem_cons.mpr ⟨⟨hinfo, hdone⟩, hframes⟩) frames' ai hchild
    | none =>
      rw [hchild] at h
      obtain ⟨hfind, _⟩ := findArticleinfo_first.1 child (⟨info, done, rest⟩ :: frames)
      rw [hchild] at hfind
      have hnone := List.find?_eq_none.mp hfind.symm
      refine ihrest frames info (done ++ [child]) hframes hinfo ?_ frames' ai h
      intro node hnode
      rw [preorders_append, List.mem_append] at hnode
      rcases hnode with hnode | hnode
      · exact hdone node hnode
      · rw [preorders, preorders, List.append_nil] at hnode
        exact Bool.eq_false_iff.mpr (hnone node hnode)

theorem findArticleinfo_root {root : Node} {frames : List Frame} {ai : Node}
    (h : findArticleinfo [] root = some (frames, ai)) : FirstPlace frames :=
  findArticleinfo_place.1 root [] (fun _ hf => absurd hf List.not_mem_nil) frames ai h

/-! ## Documents -/

/-- A document whose root is an article or a book. -/
structure ArticleDocument (doc : Node) (front : List Node) (root : Node) (rest : List Node) :
    Prop where
  children : doc.children = front ++ root :: rest
  front : ∀ c ∈ front, c.type ≠ .element
  element : root.type = .element
  article : isArticle root = true

section Documents

variable {nodeList : Text → List Node} {doc root : Node} {front rest : List Node}

theorem postProcess_article (h : ArticleDocument doc front root rest) (language : Text)
    (translators : Option PyString) :
    postProcessXmlTranslation nodeList doc language translators =
      addTranslators nodeList translators (root.setProp (text "lang") language) >>= fun root' =>
        .ok (.mk doc.info (front ++ root' :: rest)) := by
  have hfront : ∀ c ∈ front, decide (c.type ≠ .element) = true :=
    fun c hc => decide_eq_true (h.front c hc)
  have hroot : decide (root.type ≠ .element) = false := by simpa using h.element
  obtain ⟨htake, hdrop⟩ := takeWhile_stop (t := rest) hfront hroot
  rw [← h.children] at htake hdrop
  rw [postProcessXmlTranslation, hdrop, htake]
  simp only
  rw [postProcessFrom, if_pos h.article, postProcessRoot, if_pos h.element]
  cases addTranslators nodeList translators (root.setProp (text "lang") language) with
  | error e => rfl
  | ok root' => rfl

/-- Without a list of translators nothing but the language is set. -/
theorem postProcess_silent (h : ArticleDocument doc front root rest) (language : Text)
    {translators : Option PyString}
    (hnone : ∀ s ∈ translators, s.chars = getStringForTranslators ∨ s.chars = []) :
    postProcessXmlTranslation nodeList doc language translators =
      .ok (.mk doc.info (front ++ root.setProp (text "lang") language :: rest)) := by
  have hsame : addTranslators nodeList translators (root.setProp (text "lang") language) =
      .ok (root.setProp (text "lang") language) := by
    cases translators with
    | none => rfl
    | some s => rw [addTranslators, if_pos (hnone s rfl)]
  rw [postProcess_article h, hsame]
  rfl

/-- Where copyrights are put in a document: behind those that are there, in the first
information about the document and in their order. -/
def Credited (copies : List Node) (root root' : Node) : Prop :=
  match (preorder root).find? isArticleinfo with
  | none => root' = root
  | some ai => ∃ frames before behind, FirstPlace frames ∧ plug frames ai = root ∧
      ai.children = before ++ behind ∧ CopyrightsEnd before behind ∧
      root' = plug frames (.mk ai.info (before ++ copies ++ behind))

theorem addTranslators_credited {s : Text} (hne : s ≠ []) (hs : s ≠ getStringForTranslators) :
    ∃ root', addTranslators nodeList (some ⟨true, s⟩) root = .ok root' ∧
      Credited ((credits s).map (Credit.node nodeList)) root root' := by
  obtain ⟨hfind, hplug⟩ := findArticleinfo_first.1 root []
  unfold Credited
  rw [addTranslators, if_neg (not_or.mpr ⟨hs, hne⟩), ← hfind]
  cases hfound : findArticleinfo [] root with
  | none => exact ⟨root, rfl, rfl⟩
  | some ret =>
    obtain ⟨frames, ai⟩ := ret
    obtain ⟨before, behind, hchildren, hend⟩ := exists_copyrightsEnd ai.children
    refine ⟨_, ?_, frames, before, behind, findArticleinfo_root hfound, hplug frames ai hfound,
      hchildren, hend, rfl⟩
    simp only
    rw [hchildren, translators_added hend, Po.ok_bind]
    rfl

/-- Without a copyright nothing is changed. -/
theorem credited_nil (root : Node) : Credited [] root root := by
  obtain ⟨hfind, hplug⟩ := findArticleinfo_first.1 root []
  unfold Credited
  rw [← hfind]
  cases hfound : findArticleinfo [] root with
  | none => rfl
  | some ret =>
    obtain ⟨frames, ai⟩ := ret
    obtain ⟨before, behind, hchildren, hend⟩ := exists_copyrightsEnd ai.children
    have hai : Node.mk ai.info (before ++ [] ++ behind) = ai := by
      rw [List.append_nil, ← hchildren]
      obtain ⟨info, children⟩ := ai
      rfl
    refine ⟨frames, before, behind, findArticleinfo_root hfound, hplug frames ai hfound,
      hchildren, hend, ?_⟩
    rw [hai]
    exact (hplug frames ai hfound).symm

/-- The copyrights for a translation of `translator-credits`. -/
def copiesFor (nodeList : Text → List Node) (s : Text) : List Node :=
  if s = getStringForTranslators then [] else (credits s).map (Credit.node nodeList)

theorem addTranslators_any {s : Text} (hne : s ≠ []) :
    ∃ root', addTranslators nodeList (some ⟨true, s⟩) root = .ok root' ∧
      Credited (copiesFor nodeList s) root root' := by
  rw [copiesFor]
  by_cases hs : s = getStringForTranslators
  · rw [if_pos hs, addTranslators, if_pos (Or.inl hs)]
    exact ⟨root, rfl, credited_nil root⟩
  · rw [if_neg hs]
    exact addTranslators_credited hne hs

/-- The language is set, and each line that is read as a credit adds a copyright. -/
theorem postProcess_translators (h : ArticleDocument doc front root rest) (language : Text)
    {s : Text} (hne : s ≠ []) (hs : s ≠ getStringForTranslators) :
    ∃ root', postProcessXmlTranslation nodeList doc language (some ⟨true, s⟩) =
        .ok (.mk doc.info (front ++ root' :: rest)) ∧
      Credited ((credits s).map (Credit.node nodeList)) (root.setProp (text "lang") language)
        root' := by
  obtain ⟨root', hroot, hcredited⟩ : ∃ root', addTranslators nodeList (some ⟨true, s⟩)
      (root.setProp (text "lang") language) = .ok root' ∧ _ := addTranslators_credited hne hs
  rw [postProcess_article h, hroot]
  exact ⟨root', rfl, hcredited⟩

end Documents

/-! ## Translators as they are asked for -/

/-- `NAME <EMAIL>, YEAR1, YEAR2` -/
structure Translator where
  name : Text
  email : Text
  years : Text
  name_ne : name ≠ []
  name_head : ∀ c ∈ name.head?, isSpaceUnicode c = false
  name_chars : ∀ c ∈ name, c ≠ '<' ∧ c ≠ ',' ∧ c ≠ '\n'
  email_ne : email ≠ []
  email_chars : ∀ c ∈ email, c ≠ '>' ∧ c ≠ ',' ∧ c ≠ '\n'
  years_ne : years ≠ []
  years_head : ∀ c ∈ years.head?, isSpace c = false
  years_last : ∀ c ∈ years.getLast?, isSpaceUnicode c = false
  years_chars : '\n' ∉ years

namespace Translator

def line (translator : Translator) : Text :=
  translator.name ++ text " <" ++ translator.email ++ text ">, " ++ translator.years

def credit (translator : Translator) : Credit :=
  ⟨translator.name ++ text " ", translator.email, translator.years⟩

theorem stripString_line (translator : Translator) :
    stripString true translator.line = translator.line := by
  obtain ⟨c, name, hname⟩ := List.exists_cons_of_ne_nil translator.name_ne
  have hc : ¬isSpaceUnicode c = true := by
    rw [translator.name_head c (by rw [hname]; rfl)]
    exact Bool.false_ne_true
  have hlast : ¬isSpaceUnicode (translator.years.getLast translator.years_ne) = true := by
    rw [translator.years_last _ (List.getLast?_eq_getLast_of_ne_nil translator.years_ne)]
    exact Bool.false_ne_true
  have hdrop : translator.line.dropWhile isSpaceUnicode = translator.line := by
    rw [line, hname]
    exact List.dropWhile_cons_of_neg hc
  rw [stripString, if_pos rfl, hdrop, List.rdropWhile_eq_self_iff]
  intro hne
  have hline : translator.line.getLast hne = translator.years.getLast translator.years_ne :=
    List.getLast_append_of_ne_nil hne translator.years_ne
  rw [hline]
  exact hlast

theorem matches_line (translator : Translator) : translator.credit.Matches translator.line := by
  refine ⟨fun h => List.cons_ne_nil _ _ (List.append_eq_nil_iff.mp h).2, ?_, ?_, ?_, text " ",
    ?_, ?_⟩
  · intro c hc
    rcases List.mem_append.mp hc with hc | hc
    · exact ⟨(translator.name_chars c hc).1, (translator.name_chars c hc).2.1⟩
    · rw [List.mem_singleton.mp hc]
      decide
  · exact fun c hc => ⟨(translator.email_chars c hc).1, (translator.email_chars c hc).2.1⟩
  · obtain ⟨c, years, hyears⟩ := List.exists_cons_of_ne_nil translator.years_ne
    have hc : ¬isSpace c = true := by
      rw [translator.years_head c (by rw [hyears]; rfl)]
      exact Bool.false_ne_true
    show translator.years = translator.years.dropWhile isSpace
    rw [hyears, List.dropWhile_cons_of_neg hc]
  · intro c hc
    rw [List.mem_singleton.mp hc]
    decide
  · have hemail : translator.credit.email ≠ [] := translator.email_ne
    rw [if_neg hemail]
    simp [line, credit, text]

theorem lineCredit_line (translator : Translator) :
    lineCredit translator.line = some translator.credit := by
  rw [lineCredit, stripString_line]
  exact translator.matches_line.matchCredit

theorem newline_not_mem_line (translator : Translator) : '\n' ∉ translator.line := by
  intro hno
  rw [line] at hno
  rcases List.mem_append.mp hno with hno | hno
  · rcases List.mem_append.mp hno with hno | hno
    · rcases List.mem_append.mp hno with hno | hno
      · rcases List.mem_append.mp hno with hno | hno
        · exact (translator.name_chars _ hno).2.2 rfl
        · revert hno
          decide
      · exact (translator.email_chars _ hno).2.2 rfl
    · revert hno
      decide
  · exact translator.years_chars hno

end Translator

/-- The translators one on a line. -/
def creditsText (translators : List Translator) : Text :=
  List.intercalate ['\n'] (translators.map Translator.line)

theorem credits_creditsText (translators : List Translator) :
    credits (creditsText translators) = translators.map Translator.credit := by
  by_cases hnil : translators = []
  · rw [hnil]
    rfl
  · have hlines : (creditsText translators).splitOn '\n' = translators.map Translator.line := by
      refine List.splitOn_intercalate '\n' ?_ fun h => hnil (List.map_eq_nil_iff.mp h)
      intro l hl
      obtain ⟨translator, _, rfl⟩ := List.mem_map.mp hl
      exact translator.newline_not_mem_line
    have hline : lineCredit ∘ Translator.line = some ∘ Translator.credit :=
      funext Translator.lineCredit_line
    rw [credits, hlines, List.filterMap_map, hline, List.filterMap_eq_map]

/-! ## What is written for them -/

theorem comma_mem_creditsText {translators : List Translator} (hne : translators ≠ []) :
    ',' ∈ creditsText translators := by
  obtain ⟨translator, rest, rfl⟩ := List.exists_cons_of_ne_nil hne
  have hline : ',' ∈ translator.line := by
    rw [Translator.line]
    exact List.mem_append_left _ (List.mem_append_right _ (by decide))
  rw [creditsText, List.map_cons]
  cases rest.map Translator.line with
  | nil => exact List.mem_append_left _ hline
  | cons l ls =>
    rw [List.intercalate_cons_cons]
    exact List.mem_append_left _ (List.mem_append_left _ hline)

/-- A copyright for a translator. -/
def Translator.node (nodeList : Text → List Node) (translator : Translator) : Node :=
  newNode (text "copyright") [newNode (text "year") (nodeList translator.years),
    newNode (text "holder")
      (nodeList (translator.name ++ text " (" ++ translator.email ++ text ")"))]

theorem node_credit (nodeList : Text → List Node) (translator : Translator) :
    translator.credit.node nodeList = translator.node nodeList := by
  have hname : translator.credit.name ≠ [] := fun h =>
    List.cons_ne_nil _ _ (List.append_eq_nil_iff.mp h).2
  have hholder : translator.credit.holder =
      translator.name ++ text " (" ++ translator.email ++ text ")" := by
    rw [Credit.holder, if_pos ⟨hname, translator.email_ne⟩]
    simp [Translator.credit, text]
  have hyears : translator.credit.years ≠ [] := translator.years_ne
  rw [Credit.node, hholder, if_pos hyears]
  rfl

/-- Translators that are written as they are asked for get a copyright each, with their
years and with the address behind the name, in the order in which they are written. -/
theorem postProcess_written {nodeList : Text → List Node} {doc root : Node}
    {front rest : List Node} (h : ArticleDocument doc front root rest) (language : Text)
    (translators : List Translator) :
    ∃ root', postProcessXmlTranslation nodeList doc language
        (some ⟨true, creditsText translators⟩) = .ok (.mk doc.info (front ++ root' :: rest)) ∧
      Credited (translators.map (Translator.node nodeList))
        (root.setProp (text "lang") language) root' := by
  by_cases hne : translators = []
  · rw [hne]
    exact ⟨_, postProcess_silent h language fun s hs => Or.inr (by cases hs; rfl), credited_nil _⟩
  have hcomma := comma_mem_creditsText hne
  have hempty : creditsText translators ≠ [] := List.ne_nil_of_mem hcomma
  have hstring : creditsText translators ≠ getStringForTranslators := by
    intro hno
    rw [hno] at hcomma
    revert hcomma
    decide
  obtain ⟨root', hroot, hcredited⟩ : ∃ root',
      addTranslators nodeList (some ⟨true, creditsText translators⟩)
        (root.setProp (text "lang") language) = .ok root' ∧ _ :=
    addTranslators_credited hempty hstring
  have hnode : Credit.node nodeList ∘ Translator.credit = Translator.node nodeList :=
    funext (node_credit nodeList)
  rw [credits_creditsText, List.map_map, hnode] at hcredited
  rw [postProcess_article h, hroot]
  exact ⟨root', rfl, hcredited⟩

/-! ## A book with two translators -/

/-- The content of a text node is written as it is. -/
def plainNodes (s : Text) : List Node := [.mk ⟨.text, text "text", s, [], 0, false⟩ []]

def ann : Translator where
  name := text "Ann"
  email := text "ann@example.org"
  years := text "2009, 2010"
  name_ne := by decide
  name_head := by
    rintro c ⟨⟩
    decide
  name_chars := by simp [text]
  email_ne := by decide
  email_chars := by simp [text]
  years_ne := by decide
  years_head := by
    rintro c ⟨⟩
    decide
  years_last := by
    rintro c ⟨⟩
    decide
  years_chars := by decide

def bob : Translator := { ann with
  name := text "Bob"
  name_ne := by decide
  name_head := by
    rintro c ⟨⟩
    decide
  name_chars := by simp [text] }

def bookInfo : Node :=
  tag "bookinfo" [tag "title" [textNode "A title"], tag "copyright" [tag "year" [textNode "2000"]],
    tag "releaseinfo" [textNode "1.0"]]

def bookRoot : Node := tag "book" [textNode "\n", bookInfo]

def book : Node := .mk ⟨.document, text "book.xml", [], [], 0, false⟩ [bookRoot]

theorem article_book : ArticleDocument book [] bookRoot [] where
  children := rfl
  front _ hc := absurd hc List.not_mem_nil
  element := rfl
  article := rfl

theorem postProcess_translators_book :
    ∃ root', postProcessXmlTranslation plainNodes book (text "de")
        (some ⟨true, text "Ann, 2009\nnobody\nBob <b@example.org>, 2010"⟩) =
        .ok (.mk book.info [root']) ∧
      Credited ((credits (text "Ann, 2009\nnobody\nBob <b@example.org>, 2010")).map
        (Credit.node plainNodes)) (bookRoot.setProp (text "lang") (text "de")) root' :=
  postProcess_translators article_book (text "de") (by decide) (by decide)

theorem postProcess_written_book :
    ∃ root', postProcessXmlTranslation plainNodes book (text "de")
        (some ⟨true, creditsText [ann, bob]⟩) = .ok (.mk book.info [root']) ∧
      Credited ([ann, bob].map (Translator.node plainNodes))
        (bookRoot.setProp (text "lang") (text "de")) root' :=
  postProcess_written article_book (text "de") [ann, bob]

example : credits (text "Ann, 2009\nnobody\nBob <b@example.org>, 2010") =
    [⟨text "Ann", [], text "2009"⟩, ⟨text "Bob ", text "b@example.org", text "2010"⟩] := by decide

end DocbookXmlMode
end Xml2po
end I18nZh
