import I18nZh.Xml2po.RunCorrect

/-!
# A run with a translated document

The file of a run with `-r`: the messages of the files in their order, each with the
message that stands in the same place of the translated document.
-/

namespace I18nZh
namespace Xml2po

open Po Po.Merge
open DocbookXmlMode

/-! ## Messages and translations -/

/-- The messages `os` and the translations `ts` are what was found. -/
structure Reused (os : List Said) (ts : List Text) (msg : MessageOutput) : Prop where
  messages : msg.messages = os.map Said.t
  translations : msg.translations = ts
  linenos : ∀ t, msg.linenos t = (about t os).map Said.reference
  comments : ∀ t, msg.comments t = none
  nowrap : ∀ t, msg.nowrap t = (about t os).any Said.spacepreserve
  mode : msg.doTranslations = true

namespace Reused

theorem new : Reused [] [] (MessageOutput.new true) :=
  ⟨rfl, rfl, fun _ => rfl, fun _ => rfl, fun _ => rfl, rfl⟩

variable {os : List Said} {ts : List Text} {msg : MessageOutput} (h : Reused os ts msg)

include h

theorem setFilename (filename : Text) : Reused os ts (msg.setFilename filename) :=
  ⟨h.messages, h.translations, h.linenos, h.comments, h.nowrap, h.mode⟩

theorem translationsFollow : Reused os ts msg.translationsFollow :=
  ⟨h.messages, h.translations, h.linenos, h.comments, h.nowrap, h.mode⟩

/-- One more message of the files. -/
theorem outputMessage (normalize : Text → Bool → Text) (call : Call)
    (hmsgstr : msg.outputMsgstr = false) :
    Reused (os ++ (said normalize msg.filename call).toList) ts
      (msg.outputMessage normalize call) := by
  rw [MessageOutput.outputMessage, said]
  by_cases hblank : strip call.text ≠ []
  · rw [if_pos hblank, if_pos hblank, Option.toList_some]
    have hmsgid : ¬msg.outputMsgstr = true := by simp [hmsgstr]
    generalize escapePoString (normalize call.text (!call.spacepreserve)) = t
    simp only [if_neg hmsgid, h.mode, Bool.true_or, if_true]
    refine ⟨?_, h.translations, ?_, h.comments, ?_, rfl⟩
    · rw [List.map_append, ← h.messages]
      rfl
    · intro k
      show Function.update msg.linenos t _ k = _
      rw [about_append]
      by_cases hk : t = k
      · rw [if_pos hk, ← hk, Function.update_self, h.linenos, List.map_append]
        rfl
      · rw [if_neg hk, Function.update_of_ne fun hkt => hk hkt.symm, h.linenos]
    · intro k
      show (if call.spacepreserve then Function.update msg.nowrap t true else msg.nowrap) k = _
      rw [about_append]
      by_cases hk : t = k
      · rw [if_pos hk, List.any_append, ← h.nowrap, ← hk]
        cases call.spacepreserve <;> simp
      · rw [if_neg hk, ← h.nowrap]
        split_ifs
        · rw [Function.update_of_ne fun hkt => hk hkt.symm]
        · rfl
  · rw [if_neg hblank, if_neg hblank, Option.toList_none, List.append_nil]
    exact h

/-- One more translation. -/
theorem outputTranslation (normalize : Text → Bool → Text) (call : Call)
    (hmsgstr : msg.outputMsgstr = true) :
    Reused os (ts ++ (said normalize msg.filename call).toList.map Said.t)
      (msg.outputMessage normalize call) := by
  rw [MessageOutput.outputMessage, said]
  by_cases hblank : strip call.text ≠ []
  · rw [if_pos hblank, if_pos hblank, Option.toList_some]
    simp only [if_pos hmsgstr]
    exact ⟨h.messages, by rw [h.translations]; rfl, h.linenos, h.comments, h.nowrap, h.mode⟩
  · rw [if_neg hblank, if_neg hblank, Option.toList_none, List.map_nil, List.append_nil]
    exact h

end Reused

theorem outputMessage_outputMsgstr (normalize : Text → Bool → Text) (msg : MessageOutput)
    (call : Call) : (msg.outputMessage normalize call).outputMsgstr = msg.outputMsgstr := by
  rw [MessageOutput.outputMessage]
  simp only
  split_ifs <;> rfl

/-- The messages of the files. -/
theorem msgids_adds : Adds fun os msg => Reused os [] msg ∧ msg.outputMsgstr = false := by
  constructor
  · intro os msg filename h
    exact ⟨h.1.setFilename filename, h.2⟩
  · intro os msg normalize call h
    refine ⟨h.1.outputMessage normalize call h.2, ?_⟩
    rw [outputMessage_outputMsgstr, h.2]

/-- The messages of the translated document. -/
theorem msgstrs_adds (os : List Said) :
    Adds fun ts msg => Reused os (ts.map Said.t) msg ∧ msg.outputMsgstr = true := by
  constructor
  · intro ts msg filename h
    exact ⟨h.1.setFilename filename, h.2⟩
  · intro ts msg normalize call h
    refine ⟨?_, ?_⟩
    · rw [List.map_append]
      exact h.1.outputTranslation normalize call h.2
    · rw [outputMessage_outputMsgstr, h.2]

/-! ## The run -/

section Run

variable (sys : System) (args : Arguments)

/-- The messages of the files. -/
def msgids : List Said := args.filenames.reverse.flatMap (saidIn sys args)

/-- The messages of the translated document; the one for the translators is the last
of them. -/
def msgstrs : List Text := (saidIn sys args args.origxml ++ saidCredits sys args).map Said.t

variable {sys args}

/-- What a run with `-r` writes. -/
theorem main_reused (horig : args.origxml ≠ []) (hmem : args.origxml ∉ args.filenames)
    {out : Text} (h : main sys args = .ok out) :
    ∃ msg, Reused (msgids sys args) (msgstrs sys args) msg ∧ out = msg.outputAll sys.date := by
  rw [main] at h
  obtain ⟨⟨msg, lib⟩, hfiles, h⟩ := exists_of_bind h
  obtain ⟨msg', hcredits, h⟩ := exists_of_bind h
  cases h
  refine ⟨msg', ?_, rfl⟩
  have hall : args.files = args.filenames.reverse ++ [args.origxml] := by
    rw [Arguments.files, if_neg horig]
  have hlast : args.files.getLast? = some args.origxml := by rw [hall, List.getLast?_concat]
  rw [hall, List.foldlM_append] at hfiles
  obtain ⟨⟨msg₁, lib₁⟩, hread, hfiles⟩ := exists_of_bind hfiles
  obtain ⟨⟨msg₂, lib₂⟩, hfollow, hfiles⟩ := exists_of_bind hfiles
  cases hfiles
  have hnew : MessageOutput.new (args.origxml ≠ []) = MessageOutput.new true := by
    rw [decide_eq_true horig]
  rw [hnew] at hread
  obtain ⟨⟨hids, _⟩, _⟩ := msgids_adds.readFiles (fun hm => hmem (List.mem_reverse.mp hm))
    ⟨Reused.new, rfl⟩ hread
  rw [readFile] at hfollow
  simp only [if_true] at hfollow
  obtain ⟨⟨calls, l⟩, hcalls, hfollow⟩ := exists_of_bind hfollow
  cases hfollow
  have hadds := msgstrs_adds (msgids sys args)
  have hstart : Reused (msgids sys args) (([] : List Said).map Said.t)
      (msg₁.translationsFollow.setFilename args.origxml) ∧
        (msg₁.translationsFollow.setFilename args.origxml).outputMsgstr = true :=
    ⟨hids.translationsFollow.setFilename args.origxml, rfl⟩
  have hstrs : Reused (msgids sys args) ((saidIn sys args args.origxml).map Said.t)
      (outputMessages args l (msg₁.translationsFollow.setFilename args.origxml) calls) ∧
        (outputMessages args l (msg₁.translationsFollow.setFilename args.origxml)
          calls).outputMsgstr = true := by
    have hin : saidIn sys args args.origxml =
        [] ++ calls.filterMap (said (normalizeString args.options l) args.origxml) := by
      rw [saidIn, hcalls, List.nil_append]
    rw [hin]
    exact hadds.outputMessages args l hstart
  have hlib : libOf sys args args.origxml = some l := by rw [libOf, hcalls]
  cases hcredits
  rw [msgstrs, saidCredits, hlast]
  simp only [hlib]
  split_ifs
  · have hname : (outputMessages args l (msg₁.translationsFollow.setFilename args.origxml)
        calls).filename = args.origxml := outputMessages_filename l calls _
    have hcredit := (hadds.outputMessage (normalizeString args.options l) creditsCall hstrs).1
    rw [hname] at hcredit
    exact hcredit
  · rw [List.append_nil]
    exact hstrs.1

/-! ## The blocks -/

theorem Reused.oneLine {os : List Said} {ts : List Text} {msg : MessageOutput}
    (h : Reused os ts msg) (hos : ∀ o ∈ os, o.OneLine) (hts : ∀ t ∈ ts, '\n' ∉ t) :
    msg.OneLine := by
  constructor
  · intro k hk
    rw [h.messages] at hk
    obtain ⟨o, ho, rfl⟩ := List.mem_map.mp hk
    exact (hos o ho).1
  · intro t ht
    rw [h.translations] at ht
    exact hts t ht
  · intro k reference hreference
    rw [h.linenos] at hreference
    obtain ⟨o, ho, rfl⟩ := List.mem_map.mp hreference
    exact (hos o (List.mem_of_mem_filter ho)).2

/-- The block of a message with its translation, if that is another string. -/
def reusedBlock (os : List Said) (k translation : Text) : Block :=
  ⟨MessageOutput.potComments none ((about k os).map Said.reference)
      ((about k os).any Said.spacepreserve),
    some (MessageOutput.quoted k,
      MessageOutput.quoted (if translation = k then [] else translation))⟩

theorem withTranslations_eq {msg : MessageOutput} (h : msg.doTranslations = true) :
    ∀ messages translations : List Text, msg.withTranslations messages translations =
      messages.mapIdx fun i k => (k, translations[i]?.getD []) := by
  intro messages
  induction messages with
  | nil =>
    intro _
    rfl
  | cons k messages ih =>
    intro translations
    rw [MessageOutput.withTranslations, if_pos h, ih, List.mapIdx_cons, ← List.head?_eq_getElem?]
    simp only [List.getElem?_tail]

theorem Reused.blocks {os : List Said} {ts : List Text} {msg : MessageOutput}
    (h : Reused os ts msg) : (msg.withTranslations msg.messages msg.translations).map
      (fun p => msg.entryBlock p.1 p.2) =
        os.mapIdx fun i o => reusedBlock os o.t (ts[i]?.getD []) := by
  symm
  rw [List.mapIdx_eq_iff]
  intro i
  rw [withTranslations_eq h.mode, List.getElem?_map, List.getElem?_mapIdx, h.messages,
    h.translations, List.getElem?_map]
  cases os[i]? with
  | none => rfl
  | some o =>
    show some (msg.entryBlock o.t _) = some (reusedBlock os o.t _)
    rw [MessageOutput.entryBlock, reusedBlock, h.comments, h.linenos, h.nowrap]

/-- With `-r` each message has the translation that stands in the same place of the
translated document, whatever the messages are; behind the last one of that document
the name of the message for the translators is taken for a translation. -/
theorem main_reuse (hproper : sys.Proper args) (horig : args.origxml ≠ [])
    (hmem : args.origxml ∉ args.filenames) {out : Text} (h : main sys args = .ok out) :
    readBlocks out = (MessageOutput.headerBlock sys.date ::
      (msgids sys args).mapIdx fun i o =>
        reusedBlock (msgids sys args) o.t ((msgstrs sys args)[i]?.getD []), none) := by
  obtain ⟨msg, hreused, rfl⟩ := main_reused horig hmem h
  have hfiles : args.files = args.filenames.reverse ++ [args.origxml] := by
    rw [Arguments.files, if_neg horig]
  have hids : ∀ o ∈ msgids sys args, o.OneLine := by
    intro o ho
    obtain ⟨filename, hfilename, ho⟩ := List.mem_flatMap.mp ho
    refine saidIn_oneLine hproper ?_ o ho
    rw [hfiles]
    exact List.mem_append_left _ hfilename
  have hstrs : ∀ t ∈ msgstrs sys args, '\n' ∉ t := by
    intro t ht
    obtain ⟨o, ho, rfl⟩ := List.mem_map.mp ht
    rcases List.mem_append.mp ho with ho | ho
    · refine (saidIn_oneLine hproper ?_ o ho).1
      rw [hfiles]
      exact List.mem_append_right _ (List.mem_singleton_self _)
    · exact (saidCredits_oneLine hproper o ho).1
  rw [(hreused.oneLine hids hstrs).readBlocks hproper.date, hreused.blocks]

end Run

/-! ## A run -/

/-- The title is translated, and what is behind it is missing. -/
def translatedListing : Node :=
  .mk ⟨.document, text "book-de.xml", [], [], 0, false⟩
    [tag "book" [textNode "\n", tag "title" [textNode "Ein Titel"], textNode "\n"]]

def bilingual : System where
  parseFile filename :=
    if filename = text "book.xml" then some (listing, plainText)
    else if filename = text "book-de.xml" then some (translatedListing, plainText)
    else none
  images := ⟨fun _ => none, fun _ => none⟩
  date := text "2010-01-01 00:00 +0000"

def reuseArguments : Arguments :=
  ⟨true, false, false, [text "book.xml"], text "book-de.xml"⟩

theorem proper_bilingual : bilingual.Proper reuseArguments := by
  have hparse : ∀ f, ∀ x ∈ bilingual.parseFile f,
      x = (listing, plainText) ∨ x = (translatedListing, plainText) := by
    intro f x hx
    have hsome : (if f = text "book.xml" then some (listing, plainText)
      else if f = text "book-de.xml" then some (translatedListing, plainText) else none) =
        some x := hx
    split_ifs at hsome
    · exact Or.inl (Option.some.inj hsome).symm
    · exact Or.inr (Option.some.inj hsome).symm
  constructor
  · rfl
  · decide
  · decide
  · intro f _ x hx
    rcases hparse f x hx with rfl | rfl
    all_goals
      refine ⟨⟨rfl, by decide, ?_⟩, by decide⟩
      intro c hc
      rw [List.mem_singleton.mp hc]
      exact Or.inl ⟨rfl, by decide⟩
  · intro f _ x hx node _ hcontent
    rcases hparse f x hx with rfl | rfl <;> exact hcontent

theorem main_reuse_bilingual : ∃ out, main bilingual reuseArguments = .ok out ∧
    readBlocks out = (MessageOutput.headerBlock bilingual.date ::
      (msgids bilingual reuseArguments).mapIdx fun i o =>
        reusedBlock (msgids bilingual reuseArguments) o.t
          ((msgstrs bilingual reuseArguments)[i]?.getD []), none) := by
  have hrun : ∃ out, main bilingual reuseArguments = .ok out := ⟨_, rfl⟩
  obtain ⟨out, hrun⟩ := hrun
  exact ⟨out, hrun, main_reuse proper_bilingual (by decide) (by decide) hrun⟩

end Xml2po
end I18nZh
