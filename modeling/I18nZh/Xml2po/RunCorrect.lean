import I18nZh.Xml2po.Coverage
import I18nZh.Xml2po.Run

/-!
# What a run writes

The file of a run without `-r`: one block for each message of the files, in the order
in which they come up, and every text of the documents in one of them.
-/

namespace I18nZh
namespace Xml2po

open Po Po.Merge
open DocbookXmlMode

section Run

variable (sys : System) (args : Arguments)

/-! ## What is said -/

/-- The messages of a file. -/
def saidIn (filename : Text) : List Said :=
  match readCalls sys args filename with
  | .error _ => []
  | .ok (calls, lib) => calls.filterMap (said (normalizeString args.options lib) filename)

/-- The `libxml2` of a file. -/
def libOf (filename : Text) : Option Libxml2 :=
  match readCalls sys args filename with
  | .error _ => none
  | .ok (_, lib) => some lib

/-- The message for the translators, with the last file. -/
def saidCredits : List Said :=
  match args.files.getLast? with
  | none => []
  | some filename =>
    match libOf sys args filename with
    | none => []
    | some lib =>
      if args.docbook then
        (said (normalizeString args.options lib) filename creditsCall).toList
      else []

/-- The messages of a run. -/
def saidAll : List Said := args.files.flatMap (saidIn sys args) ++ saidCredits sys args

variable {sys args}

theorem outputMessage_filename (normalize : Text → Bool → Text) (msg : MessageOutput)
    (call : Call) : (msg.outputMessage normalize call).filename = msg.filename := by
  rw [MessageOutput.outputMessage]
  simp only
  split_ifs <;> rfl

theorem outputMessages_filename (lib : Libxml2) : ∀ (calls : List Call) (msg : MessageOutput),
    (outputMessages args lib msg calls).filename = msg.filename := by
  intro calls
  induction calls with
  | nil =>
    intro msg
    rfl
  | cons call calls ih =>
    intro msg
    rw [outputMessages, List.foldl_cons]
    exact (ih _).trans (outputMessage_filename _ msg call)

/-- What is said is added to what is known of a message output. -/
structure Adds (Known : List Said → MessageOutput → Prop) : Prop where
  setFilename : ∀ {os msg} filename, Known os msg → Known os (msg.setFilename filename)
  outputMessage : ∀ {os msg} normalize call, Known os msg →
    Known (os ++ (said normalize msg.filename call).toList) (msg.outputMessage normalize call)

theorem catalogue_adds : Adds Catalogue :=
  ⟨fun filename h => h.setFilename filename, fun normalize call h => h.outputMessage normalize call⟩

variable {Known : List Said → MessageOutput → Prop}

variable (args) in
/-- Some messages more. -/
theorem Adds.outputMessages (hadds : Adds Known) (lib : Libxml2) : ∀ {calls : List Call}
    {os : List Said} {msg : MessageOutput}, Known os msg →
    Known (os ++ calls.filterMap (said (normalizeString args.options lib) msg.filename))
      (outputMessages args lib msg calls) := by
  intro calls
  induction calls with
  | nil =>
    intro os msg h
    rw [List.filterMap_nil, List.append_nil]
    exact h
  | cons call calls ih =>
    intro os msg h
    have hnext := ih (hadds.outputMessage (normalizeString args.options lib) call h)
    rw [outputMessage_filename, List.append_assoc] at hnext
    have hcons : (call :: calls).filterMap (said (normalizeString args.options lib) msg.filename) =
        (said (normalizeString args.options lib) msg.filename call).toList ++
          calls.filterMap (said (normalizeString args.options lib) msg.filename) := by
      rw [List.filterMap_cons]
      cases said (normalizeString args.options lib) msg.filename call <;> rfl
    rw [hcons]
    exact hnext

/-! ## The files -/

/-- A file that is no translation. -/
theorem readFile_ok {msg msg' : MessageOutput} {lib lib' : Option Libxml2} {filename : Text}
    (horig : filename ≠ args.origxml)
    (h : readFile sys args (msg, lib) filename = .ok (msg', lib')) : ∃ calls l,
      readCalls sys args filename = .ok (calls, l) ∧ lib' = some l ∧
      msg' = outputMessages args l (msg.setFilename filename) calls := by
  rw [readFile] at h
  simp only [if_neg horig] at h
  obtain ⟨⟨calls, l⟩, hread, h⟩ := exists_of_bind h
  cases h
  exact ⟨calls, l, hread, rfl, rfl⟩

/-- The files one after the other. -/
theorem Adds.readFiles (hadds : Adds Known) : ∀ {filenames : List Text} {os : List Said}
    {msg msg' : MessageOutput} {lib lib' : Option Libxml2}, args.origxml ∉ filenames →
    Known os msg → filenames.foldlM (readFile sys args) (msg, lib) = .ok (msg', lib') →
    Known (os ++ filenames.flatMap (saidIn sys args)) msg' ∧
      msg'.filename = filenames.getLast?.getD msg.filename ∧
      lib' = (filenames.getLast?.map (libOf sys args)).getD lib := by
  intro filenames
  induction filenames with
  | nil =>
    intro os msg msg' lib lib' _ hknown h
    cases h
    rw [List.flatMap_nil, List.append_nil]
    exact ⟨hknown, rfl, rfl⟩
  | cons filename filenames ih =>
    intro os msg msg' lib lib' horig hknown h
    rw [List.foldlM_cons] at h
    obtain ⟨⟨msg₁, lib₁⟩, hread, h⟩ := exists_of_bind h
    obtain ⟨calls, l, hcalls, rfl, rfl⟩ :=
      readFile_ok (fun heq => horig (heq ▸ List.mem_cons_self)) hread
    have hnext : Known (os ++ saidIn sys args filename)
        (Xml2po.outputMessages args l (msg.setFilename filename) calls) := by
      rw [saidIn, hcalls]
      exact hadds.outputMessages args l (hadds.setFilename filename hknown)
    obtain ⟨hfiles, hname, hlib⟩ := ih (fun hmem => horig (List.mem_cons_of_mem _ hmem)) hnext h
    rw [outputMessages_filename] at hname
    have hlibOf : libOf sys args filename = some l := by rw [libOf, hcalls]
    rw [List.flatMap_cons, ← List.append_assoc, List.getLast?_cons, hname, hlib]
    refine ⟨hfiles, rfl, ?_⟩
    cases filenames.getLast? with
    | none => exact hlibOf.symm
    | some f => rfl

theorem readFiles_ok : ∀ {filenames : List Text} {msg : MessageOutput} {lib : Option Libxml2}
    {x : MessageOutput × Option Libxml2},
    filenames.foldlM (readFile sys args) (msg, lib) = .ok x →
    ∀ f ∈ filenames, ∃ calls l, readCalls sys args f = .ok (calls, l) := by
  intro filenames
  induction filenames with
  | nil =>
    intro msg lib x _ f hf
    cases hf
  | cons filename filenames ih =>
    intro msg lib x h f hf
    rw [List.foldlM_cons] at h
    obtain ⟨⟨msg₁, lib₁⟩, hread, h⟩ := exists_of_bind h
    rw [readFile] at hread
    obtain ⟨⟨calls, l⟩, hcalls, _⟩ := exists_of_bind hread
    rcases List.mem_cons.mp hf with rfl | hf
    · exact ⟨calls, l, hcalls⟩
    · exact ih h f hf

theorem files_eq (horig : args.origxml = []) : args.files = args.filenames.reverse := by
  rw [Arguments.files, if_pos horig, List.append_nil]

/-- What a run without `-r` writes is what was said. -/
theorem main_catalogue (hempty : sys.parseFile [] = none) (horig : args.origxml = [])
    {out : Text} (h : main sys args = .ok out) :
    ∃ msg, Catalogue (saidAll sys args) msg ∧ out = msg.outputAll sys.date := by
  rw [main] at h
  obtain ⟨⟨msg, lib⟩, hfiles, h⟩ := exists_of_bind h
  obtain ⟨msg', hcredits, h⟩ := exists_of_bind h
  cases h
  refine ⟨msg', ?_, rfl⟩
  have hmem : args.origxml ∉ args.files := by
    intro hmem
    obtain ⟨calls, l, hread⟩ := readFiles_ok hfiles args.origxml hmem
    rw [horig, readCalls, hempty] at hread
    cases hread
  have hnew : MessageOutput.new (args.origxml ≠ []) = MessageOutput.new false := by
    rw [decide_eq_false (not_not.mpr horig)]
  rw [hnew] at hfiles
  obtain ⟨hcatalogue, hname, hlib⟩ := catalogue_adds.readFiles hmem Catalogue.new hfiles
  rw [List.nil_append] at hcatalogue
  rw [saidAll, saidCredits]
  cases hlast : args.files.getLast? with
  | none =>
    rw [hlast, Option.map_none, Option.getD_none] at hlib
    rw [List.append_nil]
    rw [hlib, outputCredits] at hcredits
    split_ifs at hcredits
    cases hcredits
    exact hcatalogue
  | some filename =>
    rw [hlast, Option.map_some, Option.getD_some] at hlib
    rw [hlast, Option.getD_some] at hname
    rw [hlib] at hcredits
    simp only
    cases hl : libOf sys args filename with
    | none =>
      obtain ⟨calls, l, hread⟩ := readFiles_ok hfiles filename (List.mem_of_getLast? hlast)
      rw [libOf, hread] at hl
      cases hl
    | some l =>
      rw [hl] at hcredits
      cases hcredits
      simp only
      split_ifs
      · rw [← hname]
        exact hcatalogue.outputMessage _ _
      · rw [List.append_nil]
        exact hcatalogue

/-! ## The documents -/

/-- What the parser gives for the files: documents whose tags are names.  A file name
and a date stand on one line, and a text that is not blank is not serialized to a blank
one. -/
structure System.Proper (sys : System) (args : Arguments) : Prop where
  empty : sys.parseFile [] = none
  date : '\n' ∉ sys.date
  filename : ∀ f ∈ args.files, '\n' ∉ f
  document : ∀ f ∈ args.files, ∀ x ∈ sys.parseFile f, ProperDocument args.options x.1 ∧
    ∀ n ∈ forest x.1.children, '\n' ∉ n.name
  serialize : ∀ f ∈ args.files, ∀ x ∈ sys.parseFile f, ∀ node : Node, node.type = .text →
    strip node.content ≠ [] → strip (x.2.serialize node) ≠ []

theorem options_sound (args : Arguments) : args.options.Sound := by
  cases hdocbook : args.docbook with
  | true =>
    right
    show ∀ tag ∈ readIgnoredtags args.docbook, tag ∈ readFinaltags args.docbook
    rw [hdocbook]
    exact ignored_final
  | false =>
    left
    show (args.automatic || !args.docbook) = true
    rw [hdocbook, Bool.not_false, Bool.or_true]

/-- The tag of a message is the name of an element. -/
theorem tag_of_message {options : Options} {lib : Libxml2} :
    (∀ (node : Node) (ancestors prevs : List Node),
      ∀ m ∈ messagesOf options lib ancestors prevs node, ∃ n ∈ nodes node, m.tag = n.name) ∧
    ∀ (children ancestors prevs : List Node),
      ∀ m ∈ messages options lib ancestors prevs children, ∃ n ∈ forest children,
        m.tag = n.name := by
  apply Node.both
  case mk =>
    intro info children ih ancestors prevs m hm
    by_cases helement : (Node.mk info children).type = .element
    · rw [messagesOf_element helement] at hm
      rcases List.mem_append.mp hm with hm | hm
      · obtain ⟨n, hn, hname⟩ := ih _ _ m hm
        exact ⟨n, forest_subset_nodes helement n hn, hname⟩
      · split_ifs at hm
        · rw [List.mem_singleton.mp hm]
          exact ⟨_, mem_nodes_self _, rfl⟩
        · cases hm
    · rw [messagesOf_leaf helement] at hm
      cases hm
  case nil =>
    intro ancestors prevs m hm
    cases hm
  case cons =>
    intro child rest ihchild ihrest ancestors prevs m hm
    rw [messages] at hm
    rw [forest]
    rcases List.mem_append.mp hm with hm | hm
    · obtain ⟨n, hn, hname⟩ := ihchild _ _ m hm
      exact ⟨n, List.mem_append_left _ hn, hname⟩
    · obtain ⟨n, hn, hname⟩ := ihrest _ _ m hm
      exact ⟨n, List.mem_append_right _ hn, hname⟩

/-- The calls for a file: its images, then the messages of the document. -/
theorem readCalls_spec (hproper : sys.Proper args) {filename : Text}
    (hfilename : filename ∈ args.files) {calls : List Call} {lib : Libxml2}
    (h : readCalls sys args filename = .ok (calls, lib)) : ∃ doc images,
      sys.parseFile filename = some (doc, lib) ∧
      calls = images ++ (messages args.options lib [doc] [] doc.children).map Message.call ∧
      ∀ call ∈ images, call.tag = none := by
  rw [readCalls] at h
  cases hparse : sys.parseFile filename with
  | none =>
    rw [hparse] at h
    cases h
  | some x =>
    obtain ⟨doc, l⟩ := x
    rw [hparse] at h
    obtain ⟨images, himages, h⟩ := exists_of_bind h
    obtain ⟨⟨s, c⟩, hdoc, h⟩ := exists_of_bind h
    cases h
    obtain ⟨hdocument, _⟩ := hproper.document filename hfilename (doc, lib) hparse
    refine ⟨doc, images, rfl, ?_, ?_⟩
    · rw [document_calls (options_sound args) hdocument hdoc]
    · split_ifs at himages
      · rw [preProcessXml] at himages
        split at himages
        · cases himages
        · cases himages
          exact (tag_of_image sys.images filename).1 _
      · cases himages
        intro call hcall
        cases hcall

/-! ## One line -/

theorem said_ok {normalize : Text → Bool → Text} {filename : Text} {call : Call} {o : Said}
    (h : said normalize filename call = some o) : strip call.text ≠ [] ∧
      o = ⟨escapePoString (normalize call.text (!call.spacepreserve)),
        ⟨filename, call.tag, call.lineno⟩, call.comment, call.spacepreserve⟩ := by
  rw [said] at h
  split_ifs at h with hblank
  cases h
  exact ⟨hblank, rfl⟩

/-- A message that stands on lines of its own. -/
def Said.OneLine (o : Said) : Prop :=
  '\n' ∉ o.t ∧ '\n' ∉ o.reference.filename ∧ ∀ tag ∈ o.reference.tag, '\n' ∉ tag

theorem said_oneLine {normalize : Text → Bool → Text} {filename : Text} {call : Call} {o : Said}
    (h : said normalize filename call = some o) (hfilename : '\n' ∉ filename)
    (htag : ∀ tag ∈ call.tag, '\n' ∉ tag) : o.OneLine := by
  obtain ⟨_, rfl⟩ := said_ok h
  exact ⟨newline_not_mem_escape _, hfilename, htag⟩

theorem saidIn_oneLine (hproper : sys.Proper args) {filename : Text}
    (hfilename : filename ∈ args.files) : ∀ o ∈ saidIn sys args filename, o.OneLine := by
  intro o ho
  rw [saidIn] at ho
  cases hread : readCalls sys args filename with
  | error e =>
    rw [hread] at ho
    cases ho
  | ok x =>
    obtain ⟨calls, lib⟩ := x
    rw [hread] at ho
    obtain ⟨call, hcall, ho⟩ := List.mem_filterMap.mp ho
    apply said_oneLine ho (hproper.filename filename hfilename)
    obtain ⟨doc, images, hparse, rfl, himages⟩ := readCalls_spec hproper hfilename hread
    intro tag htag
    rcases List.mem_append.mp hcall with hcall | hcall
    · rw [himages call hcall] at htag
      cases htag
    · obtain ⟨m, hm, rfl⟩ := List.mem_map.mp hcall
      obtain ⟨n, hn, hname⟩ := tag_of_message.2 _ _ _ m hm
      cases htag
      rw [hname]
      exact (hproper.document filename hfilename (doc, lib) hparse).2 n hn

theorem saidCredits_oneLine (hproper : sys.Proper args) :
    ∀ o ∈ saidCredits sys args, o.OneLine := by
  intro o ho
  rw [saidCredits] at ho
  split at ho
  · cases ho
  · rename_i filename hlast
    split at ho
    · cases ho
    · split_ifs at ho
      · rw [Option.mem_toList] at ho
        refine said_oneLine ho (hproper.filename filename (List.mem_of_getLast? hlast)) ?_
        intro tag htag
        cases htag
      · cases ho

theorem saidAll_oneLine (hproper : sys.Proper args) : ∀ o ∈ saidAll sys args, o.OneLine := by
  intro o ho
  rcases List.mem_append.mp ho with ho | ho
  · obtain ⟨filename, hfilename, ho⟩ := List.mem_flatMap.mp ho
    exact saidIn_oneLine hproper hfilename o ho
  · exact saidCredits_oneLine hproper o ho

theorem Catalogue.oneLine {os : List Said} {msg : MessageOutput} (h : Catalogue os msg)
    (hos : ∀ o ∈ os, o.OneLine) : msg.OneLine := by
  constructor
  · intro k hk
    rw [h.messages, List.mem_eraseDups] at hk
    obtain ⟨o, ho, rfl⟩ := List.mem_map.mp hk
    exact (hos o ho).1
  · intro t ht
    rw [h.mode.2.2] at ht
    cases ht
  · intro k reference hreference
    rw [h.linenos] at hreference
    obtain ⟨o, ho, rfl⟩ := List.mem_map.mp hreference
    exact (hos o (List.mem_of_mem_filter ho)).2

/-! ## The blocks -/

/-- The block of a message, by what was said of it. -/
def potBlock (os : List Said) (k : Text) : Block :=
  ⟨MessageOutput.potComments ((about k os).findSome? Said.comment?)
      ((about k os).map Said.reference) ((about k os).head?.any Said.spacepreserve),
    some (MessageOutput.quoted k, emptyString)⟩

theorem Catalogue.blocks {os : List Said} {msg : MessageOutput} (h : Catalogue os msg)
    (translations : List Text) :
    (msg.withTranslations msg.messages translations).map (fun p => msg.entryBlock p.1 p.2) =
      (os.map Said.t).eraseDups.map (potBlock os) := by
  have hpairs : ∀ (messages translations : List Text),
      msg.withTranslations messages translations = messages.map fun k => (k, []) := by
    intro messages
    induction messages with
    | nil =>
      intro _
      rfl
    | cons k messages ih =>
      intro translations
      rw [MessageOutput.withTranslations, h.mode.1, if_neg Bool.false_ne_true, ih, List.map_cons]
  rw [hpairs, List.map_map, h.messages]
  apply List.map_congr_left
  intro k _
  show msg.entryBlock k [] = potBlock os k
  rw [MessageOutput.entryBlock, potBlock, h.comments, h.linenos, h.nowrap]
  have hnil : (if ([] : Text) = k then [] else []) = ([] : Text) := by split_ifs <;> rfl
  rw [hnil]
  rfl

theorem readBlocks_said (hproper : sys.Proper args) {msg : MessageOutput}
    (h : Catalogue (saidAll sys args) msg) : readBlocks (msg.outputAll sys.date) =
      (MessageOutput.headerBlock sys.date ::
        ((saidAll sys args).map Said.t).eraseDups.map (potBlock (saidAll sys args)), none) := by
  have hline := h.oneLine (saidAll_oneLine hproper)
  rw [hline.readBlocks hproper.date, h.blocks]

/-- What is written is a PO file: the header, and one block for each message, in the
order in which they come up first, with the first comment there is, all tags and all
references. -/
theorem main_blocks (hproper : sys.Proper args) (horig : args.origxml = []) {out : Text}
    (h : main sys args = .ok out) :
    readBlocks out = (MessageOutput.headerBlock sys.date ::
      ((saidAll sys args).map Said.t).eraseDups.map (potBlock (saidAll sys args)), none) := by
  obtain ⟨msg, hcatalogue, rfl⟩ := main_catalogue hproper.empty horig h
  exact readBlocks_said hproper hcatalogue

/-! ## Every text -/

theorem mem_textNodes {lib : Libxml2} :
    (∀ (node : Node) (parent : Text), ∀ x ∈ textNodesOf lib parent node, ∃ n : Node,
      n.type = .text ∧ strip n.content ≠ [] ∧ x.2 = lib.serialize n) ∧
    ∀ (children : List Node) (parent : Text), ∀ x ∈ textNodes lib parent children, ∃ n : Node,
      n.type = .text ∧ strip n.content ≠ [] ∧ x.2 = lib.serialize n := by
  apply Node.both
  case mk =>
    intro info children ih parent x hx
    by_cases helement : (Node.mk info children).type = .element
    · rw [textNodesOf_element helement] at hx
      exact ih _ x hx
    · rw [textNodesOf_leaf helement] at hx
      split_ifs at hx with htext
      · rw [List.mem_singleton.mp hx]
        exact ⟨_, htext.1, htext.2, rfl⟩
      · cases hx
  case nil =>
    intro parent x hx
    cases hx
  case cons =>
    intro child rest ihchild ihrest parent x hx
    rw [textNodes] at hx
    rcases List.mem_append.mp hx with hx | hx
    · exact ihchild parent x hx
    · exact ihrest parent x hx

/-- What stands in a message is a part of its text. -/
theorem texts_infix_render : ∀ {ps : List Piece} {x : Text × Text}, x ∈ texts ps →
    ∀ k, x.2 <:+: render k ps := by
  intro ps
  induction ps with
  | nil =>
    intro x hx
    cases hx
  | cons p ps ih =>
    intro x hx k
    rw [texts, List.filterMap_cons] at hx
    cases p with
    | text parent content serialized =>
      rw [render]
      cases hblank : Piece.textNode? (.text parent content serialized) with
      | none =>
        rw [hblank] at hx
        exact (ih hx k).trans (List.suffix_append _ _).isInfix
      | some y =>
        rw [hblank] at hx
        rw [Piece.textNode?] at hblank
        split_ifs at hblank
        cases hblank
        rcases List.mem_cons.mp hx with rfl | hx
        · exact (List.prefix_append _ _).isInfix
        · exact (ih hx k).trans (List.suffix_append _ _).isInfix
    | markup s => exact (ih hx k).trans (List.suffix_append _ _).isInfix
    | hole element => exact (ih hx (k + 1)).trans (List.suffix_append _ _).isInfix

/-- A message with a text that is not blank is said. -/
theorem said_of_text (hproper : sys.Proper args) {filename : Text}
    (hfilename : filename ∈ args.files) {doc : Node} {lib : Libxml2}
    (hparse : sys.parseFile filename = some (doc, lib)) {x : Text × Text}
    (hx : x ∈ textNodes lib doc.name doc.children) {m : Message} (hm : x ∈ m.texts) :
    said (normalizeString args.options lib) filename m.call =
      some ⟨escapePoString (normalizeString args.options lib m.call.text (!m.spacepreserve)),
        ⟨filename, some m.tag, m.lineno⟩, m.comment, m.spacepreserve⟩ := by
  obtain ⟨n, htype, hcontent, hserialized⟩ := mem_textNodes.2 _ _ x hx
  have hne := hproper.serialize filename hfilename (doc, lib) hparse n htype hcontent
  rw [← hserialized] at hne
  have hstrip : strip m.call.text ≠ [] := by
    intro hnil
    rw [strip_eq_nil_iff] at hnil
    apply hne
    rw [strip_eq_nil_iff]
    intro c hc
    exact hnil c ((texts_infix_render hm 0).subset hc)
  rw [said, if_pos hstrip]
  rfl

/-- What is said of a message of a file is part of what is said. -/
theorem mem_saidAll (hproper : sys.Proper args) {filename : Text} (hfile : filename ∈ args.files)
    {calls : List Call} {lib : Libxml2} (hread : readCalls sys args filename = .ok (calls, lib))
    {doc : Node} (hparse : sys.parseFile filename = some (doc, lib)) {m : Message}
    (hm : m ∈ messages args.options lib [doc] [] doc.children) {o : Said}
    (ho : said (normalizeString args.options lib) filename m.call = some o) :
    o ∈ saidAll sys args := by
  obtain ⟨doc', images, hparse', hcalls, _⟩ := readCalls_spec hproper hfile hread
  obtain ⟨rfl, _⟩ := Prod.mk.inj (Option.some.inj (hparse.symm.trans hparse'))
  apply List.mem_append_left
  rw [List.mem_flatMap]
  refine ⟨filename, hfile, ?_⟩
  rw [saidIn, hread]
  refine List.mem_filterMap.mpr ⟨m.call, ?_, ho⟩
  rw [hcalls]
  exact List.mem_append_right _ (List.mem_map_of_mem hm)

/-- There is a block for what is said. -/
theorem potBlock_mem (hproper : sys.Proper args) {msg : MessageOutput}
    (h : Catalogue (saidAll sys args) msg) {o : Said} (ho : o ∈ saidAll sys args) :
    potBlock (saidAll sys args) o.t ∈ (readBlocks (msg.outputAll sys.date)).1 := by
  rw [readBlocks_said hproper h]
  apply List.mem_cons_of_mem
  apply List.mem_map_of_mem
  rw [List.mem_eraseDups]
  exact List.mem_map_of_mem ho

/-- Every text of a document that does not stand in a tag to be ignored is in a message
of it, and what is written has a block for this message with a reference to it. -/
theorem main_covers (hproper : sys.Proper args) (horig : args.origxml = []) {out : Text}
    (h : main sys args = .ok out) : ∀ filename ∈ args.filenames, ∃ doc lib,
      sys.parseFile filename = some (doc, lib) ∧
      ∀ x ∈ textNodes lib doc.name doc.children, x.1 ∉ args.options.ignoredTags →
        ∃ m ∈ messages args.options lib [doc] [] doc.children, x ∈ m.texts ∧
          ∃ block ∈ (readBlocks out).1, ∃ references : List Reference,
            block.message = some (MessageOutput.quoted (escapePoString
              (normalizeString args.options lib m.call.text (!m.spacepreserve))), emptyString) ∧
            ⟨filename, some m.tag, m.lineno⟩ ∈ references ∧
            text "#: " ++ List.intercalate (text " ")
              (references.map MessageOutput.referenceItem) ∈ block.comments := by
  intro filename hfilename
  have hfile : filename ∈ args.files := by
    rw [files_eq horig]
    exact List.mem_reverse.mpr hfilename
  obtain ⟨msg, hcatalogue, rfl⟩ := main_catalogue hproper.empty horig h
  rw [main] at h
  obtain ⟨x, hfiles, _⟩ := exists_of_bind h
  obtain ⟨calls, lib, hread⟩ := readFiles_ok hfiles filename hfile
  obtain ⟨doc, images, hparse, hcalls, _⟩ := readCalls_spec hproper hfile hread
  refine ⟨doc, lib, hparse, ?_⟩
  intro x hx hignored
  obtain ⟨lost, hperm, hlost⟩ := top_covered
    (hproper.document filename hfile (doc, lib) hparse).1 doc.children [] fun _ hc => hc
  have hmem := hperm.mem_iff.mp hx
  rcases List.mem_append.mp hmem with hmem | hmem
  · obtain ⟨m, hm, hxm⟩ := List.mem_flatMap.mp hmem
    refine ⟨m, hm, hxm, ?_⟩
    have hsaid := said_of_text hproper hfile hparse hx hxm
    have hall := mem_saidAll hproper hfile hread hparse hm hsaid
    set k := escapePoString (normalizeString args.options lib m.call.text (!m.spacepreserve))
    refine ⟨_, potBlock_mem hproper hcatalogue hall,
      (about k (saidAll sys args)).map Said.reference, rfl, ?_, ?_⟩
    · refine List.mem_map.mpr ⟨_, List.mem_filter.mpr ⟨hall, ?_⟩, rfl⟩
      exact decide_eq_true rfl
    · rw [potBlock, MessageOutput.potComments]
      simp
  · exact absurd (hlost x hmem) hignored

end Run

/-! ## A run -/

def shelf : System where
  parseFile filename := if filename = text "book.xml" then some (listing, plainText) else none
  images := ⟨fun _ => none, fun _ => none⟩
  date := text "2010-01-01 00:00 +0000"

def bookArguments : Arguments := ⟨true, false, false, [text "book.xml"], []⟩

theorem proper_shelf : shelf.Proper bookArguments := by
  have hparse : ∀ f, ∀ x ∈ shelf.parseFile f, x = (listing, plainText) := by
    intro f x hx
    have hsome : (if f = text "book.xml" then some (listing, plainText) else none) = some x := hx
    split_ifs at hsome
    exact (Option.some.inj hsome).symm
  constructor
  · rfl
  · decide
  · decide
  · intro f _ x hx
    rw [hparse f x hx]
    refine ⟨⟨rfl, by decide, ?_⟩, by decide⟩
    intro c hc
    rw [List.mem_singleton.mp hc]
    exact Or.inl ⟨rfl, by decide⟩
  · intro f _ x hx node _ hcontent
    rw [hparse f x hx]
    exact hcontent

theorem shelf_runs : ∃ out, main shelf bookArguments = .ok out := ⟨_, rfl⟩

theorem main_blocks_shelf : ∃ out, main shelf bookArguments = .ok out ∧
    readBlocks out = (MessageOutput.headerBlock shelf.date ::
      ((saidAll shelf bookArguments).map Said.t).eraseDups.map
        (potBlock (saidAll shelf bookArguments)), none) := by
  obtain ⟨out, hrun⟩ := shelf_runs
  exact ⟨out, hrun, main_blocks proper_shelf rfl hrun⟩

theorem main_covers_shelf : ∃ out, main shelf bookArguments = .ok out ∧
    ∀ filename ∈ bookArguments.filenames, ∃ doc lib,
      shelf.parseFile filename = some (doc, lib) ∧
      ∀ x ∈ textNodes lib doc.name doc.children, x.1 ∉ bookArguments.options.ignoredTags →
        ∃ m ∈ messages bookArguments.options lib [doc] [] doc.children, x ∈ m.texts ∧
          ∃ block ∈ (readBlocks out).1, ∃ references : List Reference,
            block.message = some (MessageOutput.quoted (escapePoString
              (normalizeString bookArguments.options lib m.call.text (!m.spacepreserve))),
                emptyString) ∧
            ⟨filename, some m.tag, m.lineno⟩ ∈ references ∧
            text "#: " ++ List.intercalate (text " ")
              (references.map MessageOutput.referenceItem) ∈ block.comments := by
  obtain ⟨out, hrun⟩ := shelf_runs
  exact ⟨out, hrun, main_covers proper_shelf rfl hrun⟩

end Xml2po
end I18nZh
