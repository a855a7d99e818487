import I18nZh.Po.Failing
import I18nZh.Po.Touched

/-!
# Merges one after the other

What several runs of the script leave in one file, each with a source of its own,
and what the numbers of a report stand for.
-/

namespace I18nZh
namespace Po
namespace Merge

/-! ## The flags of a source -/

/-- What the hash has besides a msgstr are flag comments. -/
def FlagsOnly (source : Source) : Prop := ∀ msgid, ∀ c ∈ (source.get msgid).2, isFlag c

theorem flagsOnly_none : FlagsOnly fun _ => none := by
  intro msgid c hc
  cases hc

theorem FlagsOnly.add {source : Source} (h : FlagsOnly source) (block : Block) :
    FlagsOnly (addTranslation source block) := by
  obtain ⟨comments, message⟩ := block
  cases message with
  | none => exact h
  | some strings =>
    intro msgid c hc
    rw [Source.get, addTranslation] at hc
    simp only at hc
    by_cases hid : msgid = strings.1
    · rw [hid, Function.update_self, Option.getD_some, splitComments,
        List.partition_eq_filter_filter] at hc
      exact (List.mem_filter.mp hc).2
    · rw [Function.update_of_ne hid] at hc
      exact h msgid c hc

theorem sourceOf_flagsOnly (stdin : Text) : FlagsOnly (sourceOf stdin) := by
  rw [sourceOf_eq]
  generalize (readBlocks stdin).1 = bs
  have hrun : ∀ (source : Source), FlagsOnly source →
      FlagsOnly (bs.foldl addTranslation source) := by
    induction bs with
    | nil =>
      intro source h
      exact h
    | cons block bs ih =>
      intro source h
      exact ih _ (h.add block)
  exact hrun _ flagsOnly_none

/-! ## Two merges of a block -/

/-- The source has a translation of the message. -/
def Translates (source : Source) (msgid : Text) : Prop := (source.get msgid).1 ≠ emptyString

instance (source : Source) (msgid : Text) : Decidable (Translates source msgid) :=
  inferInstanceAs (Decidable (_ ≠ _))

/-- The hash of two sources, where the translations of the second one go first. -/
def overriding (old new : Source) : Source := fun msgid =>
  if Translates new msgid then new msgid else old msgid

theorem overriding_get (old new : Source) (msgid : Text) : (overriding old new).get msgid =
    if Translates new msgid then new.get msgid else old.get msgid := by
  rw [Source.get, overriding]
  by_cases h : Translates new msgid
  · rw [if_pos h, if_pos h]
    rfl
  · rw [if_neg h, if_neg h]
    rfl

theorem overriding_self (source : Source) : overriding source source = source := by
  funext msgid
  rw [overriding, ite_self]

theorem FlagsOnly.overriding {old new : Source} (hold : FlagsOnly old) (hnew : FlagsOnly new) :
    FlagsOnly (overriding old new) := by
  intro msgid c hc
  rw [overriding_get] at hc
  by_cases h : Translates new msgid
  · rw [if_pos h] at hc
    exact hnew msgid c hc
  · rw [if_neg h] at hc
    exact hold msgid c hc

theorem splitComments_other (comments flags : List Text) (h : ∀ c ∈ flags, isFlag c) :
    (splitComments ((splitComments comments).2 ++ flags)).2 = (splitComments comments).2 := by
  simp only [splitComments, List.partition_eq_filter_filter]
  have hnone : flags.filter (not ∘ isFlag) = [] := by
    rw [List.filter_eq_nil_iff]
    intro c hc
    simp [h c hc]
  rw [List.filter_append, List.filter_filter, hnone, List.append_nil]
  simp only [Bool.and_self]

theorem replaced_replaced {old : Source} (hold : FlagsOnly old) (new : Source)
    (comments : List Text) (msgid msgstr : Text) :
    replaced new (replaced old comments msgid msgstr).1 msgid
        (replaced old comments msgid msgstr).2 =
      replaced (overriding old new) comments msgid msgstr := by
  have hget := overriding_get old new msgid
  by_cases hid : msgid = emptyString
  · simp [replaced, hid]
  by_cases hnew : Translates new msgid
  · rw [if_pos hnew] at hget
    have hother : (splitComments (replaced old comments msgid msgstr).1).2 =
        (splitComments comments).2 := by
      unfold replaced
      split_ifs
      · exact splitComments_other comments _ (hold msgid)
      · rfl
    have hboth : replaced (overriding old new) comments msgid msgstr =
        ((splitComments comments).2 ++ (new.get msgid).2, (new.get msgid).1) := by
      rw [replaced, hget, if_pos ⟨hid, hnew⟩]
    rw [hboth, replaced, if_pos ⟨hid, hnew⟩, hother]
  · rw [if_neg hnew] at hget
    have hold : replaced (overriding old new) comments msgid msgstr =
        replaced old comments msgid msgstr := by
      rw [replaced, replaced, hget]
    rw [hold, replaced, if_neg fun h => hnew h.2]

/-- Two merges of a block are one with the hash of both sources. -/
theorem updateBlock_updateBlock {old : Source} (hold : FlagsOnly old) (new : Source)
    (block : Block) : updateBlock new (updateBlock old block) =
      updateBlock (overriding old new) block := by
  obtain ⟨comments, message⟩ := block
  cases message with
  | none => rfl
  | some strings =>
    obtain ⟨msgid, msgstr⟩ := strings
    rw [updateBlock_some, updateBlock_some, updateBlock_some, replaced_replaced hold]

/-! ## Any number of merges -/

/-- The hash of some sources, the last translation of a message first. -/
def overridingAll (sources : List Source) : Source := sources.foldl overriding fun _ => none

theorem overridingAll_concat (sources : List Source) (source : Source) :
    overridingAll (sources ++ [source]) = overriding (overridingAll sources) source := by
  rw [overridingAll, List.foldl_append]
  rfl

/-- What it has for a message: what the last source has that translates it. -/
theorem overridingAll_get (sources : List Source) (msgid : Text) :
    ((∀ s ∈ sources, ¬ Translates s msgid) ∧ ¬ Translates (overridingAll sources) msgid) ∨
      ∃ before s after, sources = before ++ s :: after ∧ Translates s msgid ∧
        (∀ t ∈ after, ¬ Translates t msgid) ∧
        (overridingAll sources).get msgid = s.get msgid := by
  induction sources using List.reverseRecOn with
  | nil => exact Or.inl ⟨by simp, fun h => h rfl⟩
  | append_singleton sources source ih =>
    have hget := overriding_get (overridingAll sources) source msgid
    rw [← overridingAll_concat] at hget
    by_cases h : Translates source msgid
    · rw [if_pos h] at hget
      exact Or.inr ⟨sources, source, [], rfl, h, by simp, hget⟩
    · rw [if_neg h] at hget
      rcases ih with ⟨hnone, hall⟩ | ⟨before, s, after, rfl, hs, hafter, hlast⟩
      · refine Or.inl ⟨?_, by rw [Translates, hget]; exact hall⟩
        intro s hs
        rcases List.mem_append.mp hs with hs | hs
        · exact hnone s hs
        · rw [List.mem_singleton.mp hs]
          exact h
      · refine Or.inr ⟨before, s, after ++ [source], by simp, hs, ?_, hget.trans hlast⟩
        intro t ht
        rcases List.mem_append.mp ht with ht | ht
        · exact hafter t ht
        · rw [List.mem_singleton.mp ht]
          exact h

theorem foldl_updateBlock : ∀ {sources : List Source} {source : Source} (block : Block),
    FlagsOnly source → (∀ s ∈ sources, FlagsOnly s) →
    sources.foldl (fun b s => updateBlock s b) (updateBlock source block) =
      updateBlock (sources.foldl overriding source) block := by
  intro sources
  induction sources with
  | nil =>
    intro source block _ _
    rfl
  | cons s sources ih =>
    intro source block hsource hall
    obtain ⟨hs, hall⟩ := List.forall_mem_cons.mp hall
    rw [List.foldl_cons, List.foldl_cons, updateBlock_updateBlock hsource,
      ih block (hsource.overriding hs) hall]

theorem updateBlock_empty (block : Block) : updateBlock (fun _ => none) block = block := by
  obtain ⟨comments, message⟩ := block
  cases message with
  | none => rfl
  | some strings =>
    rw [updateBlock_some, replaced, if_neg fun h => h.2 rfl]

theorem foldl_updateBlock_all {sources : List Source} (h : ∀ s ∈ sources, FlagsOnly s)
    (block : Block) : sources.foldl (fun b s => updateBlock s b) block =
      updateBlock (overridingAll sources) block := by
  have hrun := foldl_updateBlock block flagsOnly_none h
  rwa [updateBlock_empty] at hrun

/-! ## The runs -/

/-- The blocks of the file are read back, when each of them returns. -/
theorem readBlocks_merged {stdin infile : Text}
    (h : ∀ block ∈ (readBlocks infile).1, Returns (sourceOf stdin) block) :
    readBlocks (merged stdin infile) =
      ((readBlocks infile).1.map (updateBlock (sourceOf stdin)), none) := by
  have hs := sourceOf_sound stdin
  have hp := readBlocks_parsed infile
  have hwritten : ∀ block ∈ (readBlocks infile).1.map (updateBlock (sourceOf stdin)),
      Parsed block ∧ ¬ block.isEnd := by
    intro block hblock
    obtain ⟨b, hb, rfl⟩ := List.mem_map.mp hblock
    exact updateBlock_parsed hs (hp b hb).1 (hp b hb).2
  rw [readBlocks_eq]
  apply (blocksOf_outText _ _ hwritten (Nat.lt_succ_self _)).mpr
  intro block hblock
  obtain ⟨b, hb, rfl⟩ := List.mem_map.mp hblock
  exact (plain_updateBlock_iff hs (hp b hb).1 (hp b hb).2).mpr (h b hb)

theorem messages_map (source : Source) (bs : List Block) :
    messages (bs.map (updateBlock source)) = (messages bs).map (updateBlock source) := by
  rw [messages, messages, List.filter_map]
  congr 1
  apply List.filter_congr
  intro block _
  obtain ⟨comments, message⟩ := block
  cases message with
  | none => rfl
  | some strings => rfl

theorem stateAfter_stringCount (source : Source) (bs : List Block) :
    (stateAfter source bs).stringCount = (messages bs).length := by
  rw [stateAfter, foldl_stringCount]
  exact Nat.zero_add _

/-- A run on a file with a message, when both files are parsed. -/
theorem main_ok {lang stdin infile : Text} {fs : FileSystem} (prog : Text)
    (hfile : fs lang = some infile) (hsource : (readBlocks stdin).2 = none)
    (hin : (readBlocks infile).2 = none) (hmessages : messages (readBlocks infile).1 ≠ []) :
    ∃ fs' report, main [prog, lang] stdin fs = (fs', .ok report) ∧
      fs' lang = some (merged stdin infile) ∧
      fs' (lang ++ text ".bak") = some infile := by
  have hcount : (stateAfter (sourceOf stdin) (readBlocks infile).1).stringCount ≠ 0 := by
    rw [stateAfter_stringCount]
    exact fun h => hmessages (List.length_eq_zero_iff.mp h)
  have hrun := main_of_file hsource hfile prog
  rw [hin] at hrun
  simp only at hrun
  rw [if_neg hcount] at hrun
  have hbak : lang ++ text ".bak" ≠ lang := by simp [text]
  refine ⟨_, _, hrun, Function.update_self _ _ _, ?_⟩
  rw [Function.update_of_ne hbak, Function.update_self]

/-- One run after the other on a file, until an exception ends one. -/
def mains (prog lang : Text) : List Text → FileSystem → PyM (FileSystem × List Report)
  | [], fs => .ok (fs, [])
  | stdin :: stdins, fs =>
    match main [prog, lang] stdin fs with
    | (_, .error e) => .error e
    | (fs, .ok report) => do
      let (fs, reports) ← mains prog lang stdins fs
      return (fs, report :: reports)

/-- The block is read back after each of the runs. -/
def ReturnsThroughout : List Source → Block → Prop
  | [], _ => True
  | source :: sources, block => Returns source block ∧ ReturnsThroughout sources (updateBlock source block)

instance : ∀ (sources : List Source) (block : Block), Decidable (ReturnsThroughout sources block)
  | [], _ => inferInstanceAs (Decidable True)
  | source :: sources, block =>
    have := instDecidableReturnsThroughout sources (updateBlock source block)
    inferInstanceAs (Decidable (Returns source block ∧ ReturnsThroughout sources (updateBlock source block)))

/-- What holds of a file before a number of merges: there is a message, both sides are
parsed, and no block is lost on the way. -/
structure Mergeable (infile : Text) (stdins : List Text) : Prop where
  parsed : (readBlocks infile).2 = none
  messages_ne : messages (readBlocks infile).1 ≠ []
  sources : ∀ stdin ∈ stdins, (readBlocks stdin).2 = none
  kept : ∀ block ∈ (readBlocks infile).1, ReturnsThroughout (stdins.map sourceOf) block

/-- One merge leaves the file ready for the others. -/
theorem Mergeable.step {infile stdin : Text} {stdins : List Text}
    (h : Mergeable infile (stdin :: stdins)) :
    readBlocks (merged stdin infile) =
        ((readBlocks infile).1.map (updateBlock (sourceOf stdin)), none) ∧
      Mergeable (merged stdin infile) stdins := by
  have hread := readBlocks_merged fun block hblock => (h.kept block hblock).1
  refine ⟨hread, by rw [hread], ?_, ?_, ?_⟩
  · rw [hread, messages_map]
    exact fun hnil => h.messages_ne (List.map_eq_nil_iff.mp hnil)
  · exact fun s hs => h.sources s (List.mem_cons_of_mem stdin hs)
  · rw [hread, List.forall_mem_map]
    exact fun block hblock => (h.kept block hblock).2

/-- All runs: each block goes through all merges. -/
theorem mains_blocks : ∀ {stdins : List Text} {lang infile : Text} {fs : FileSystem}
    (prog : Text), fs lang = some infile → Mergeable infile stdins →
    ∃ fs' reports outfile, mains prog lang stdins fs = .ok (fs', reports) ∧
      fs' lang = some outfile ∧ (stdins ≠ [] → outfile = outText (readBlocks outfile).1) ∧
      readBlocks outfile = ((readBlocks infile).1.map fun block =>
        (stdins.map sourceOf).foldl (fun b s => updateBlock s b) block, none) := by
  intro stdins
  induction stdins with
  | nil =>
    intro lang infile fs prog hfile h
    refine ⟨fs, [], infile, rfl, hfile, fun hne => absurd rfl hne, ?_⟩
    show readBlocks infile = ((readBlocks infile).1.map fun block => block, none)
    rw [List.map_id', ← h.parsed]
  | cons stdin stdins ih =>
    intro lang infile fs prog hfile h
    obtain ⟨hread, hrest⟩ := h.step
    obtain ⟨fs₁, report, hrun, hfile₁, _⟩ := main_ok prog hfile
      (h.sources stdin List.mem_cons_self) h.parsed h.messages_ne
    obtain ⟨fs', reports, outfile, hruns, hfile', hout, hblocks⟩ := ih prog hfile₁ hrest
    refine ⟨fs', report :: reports, outfile, ?_, hfile', fun _ => ?_, ?_⟩
    · rw [mains, hrun]
      simp only
      rw [hruns, ok_bind]
      rfl
    · cases stdins with
      | nil =>
        cases hruns
        rw [Option.some.inj (hfile'.symm.trans hfile₁), hread]
        rfl
      | cons stdin' stdins => exact hout (List.cons_ne_nil stdin' stdins)
    · rw [hblocks, hread, List.map_map]
      rfl

theorem updateBlocks_all (stdins : List Text) (blocks : List Block) :
    blocks.map (fun block => (stdins.map sourceOf).foldl (fun b s => updateBlock s b) block) =
      blocks.map (updateBlock (overridingAll (stdins.map sourceOf))) := by
  have hflags : ∀ s ∈ stdins.map sourceOf, FlagsOnly s := by
    rw [List.forall_mem_map]
    exact fun stdin _ => sourceOf_flagsOnly stdin
  apply List.map_congr_left
  intro block _
  exact foldl_updateBlock_all hflags block

/-- Several merges leave what one merge would leave whose source has, for each message,
what the last of them has that translates it, and all the blocks are read back. -/
theorem mains_override {stdins : List Text} {lang infile : Text} {fs : FileSystem}
    (prog : Text) (hne : stdins ≠ []) (hfile : fs lang = some infile)
    (h : Mergeable infile stdins) :
    ∃ fs' reports outfile, mains prog lang stdins fs = .ok (fs', reports) ∧
      fs' lang = some outfile ∧
      outfile = outText ((readBlocks infile).1.map
        (updateBlock (overridingAll (stdins.map sourceOf)))) ∧
      readBlocks outfile = ((readBlocks infile).1.map
        (updateBlock (overridingAll (stdins.map sourceOf))), none) := by
  obtain ⟨fs', reports, outfile, hruns, hfile', hout, hblocks⟩ := mains_blocks prog hfile h
  rw [updateBlocks_all] at hblocks
  exact ⟨fs', reports, outfile, hruns, hfile', by rw [hout hne, hblocks], hblocks⟩

/-- Two sources that translate the first message. -/
def twoSources : List Text := [translations, text "#, fuzzy\nmsgid \"a\"\nmsgstr \"z\"\n"]

theorem mergeable_twoSources : Mergeable commented twoSources :=
  ⟨rfl, by decide, by decide, by decide⟩

theorem mains_override_twoSources : ∃ fs' reports outfile,
    mains (text "po-merge.py") (text "lang.po") twoSources (inFile commented) = .ok (fs', reports) ∧
      fs' (text "lang.po") = some outfile ∧
      outfile = outText ((readBlocks commented).1.map
        (updateBlock (overridingAll (twoSources.map sourceOf)))) ∧
      readBlocks outfile = ((readBlocks commented).1.map
        (updateBlock (overridingAll (twoSources.map sourceOf))), none) :=
  mains_override (text "po-merge.py") (by decide) rfl mergeable_twoSources

/-- No two of the sources translate the message differently. -/
def Agree (sources : List Source) (msgid : Text) : Prop :=
  ∀ s ∈ sources, ∀ t ∈ sources, Translates s msgid → Translates t msgid →
    s.get msgid = t.get msgid

instance (sources : List Source) (msgid : Text) : Decidable (Agree sources msgid) :=
  inferInstanceAs (Decidable (∀ s ∈ sources, ∀ t ∈ sources, Translates s msgid →
    Translates t msgid → s.get msgid = t.get msgid))

theorem overridingAll_of_agree {sources : List Source} {msgid : Text} (h : Agree sources msgid)
    {s : Source} (hs : s ∈ sources) (ht : Translates s msgid) :
    (overridingAll sources).get msgid = s.get msgid := by
  rcases overridingAll_get sources msgid with ⟨hnone, _⟩ | ⟨before, t, after, rfl, htr, _, hlast⟩
  · exact absurd ht (hnone s hs)
  · rw [hlast]
    exact h t (by simp) s hs htr ht

/-- The order of the sources is of no account for a message they agree on. -/
theorem updateBlock_perm {sources sources' : List Source} (hperm : sources.Perm sources')
    {block : Block} (h : ∀ strings ∈ block.message, Agree sources strings.1) :
    updateBlock (overridingAll sources) block = updateBlock (overridingAll sources') block := by
  obtain ⟨comments, message⟩ := block
  cases message with
  | none => rfl
  | some strings =>
    obtain ⟨msgid, msgstr⟩ := strings
    have hagree : Agree sources msgid := h (msgid, msgstr) rfl
    have hagree' : Agree sources' msgid := fun s hs t ht =>
      hagree s (hperm.mem_iff.mpr hs) t (hperm.mem_iff.mpr ht)
    rw [updateBlock_some, updateBlock_some, replaced, replaced]
    by_cases hany : ∃ s ∈ sources, Translates s msgid
    · obtain ⟨s, hs, ht⟩ := hany
      rw [overridingAll_of_agree hagree hs ht,
        overridingAll_of_agree hagree' (hperm.mem_iff.mp hs) ht]
    · have hnone : ∀ {ss : List Source}, ss.Perm sources →
          ¬ Translates (overridingAll ss) msgid := by
        intro ss hss
        rcases overridingAll_get ss msgid with ⟨_, hnone⟩ | ⟨before, s, after, rfl, hs, _⟩
        · exact hnone
        · exact absurd ⟨s, hss.mem_iff.mp (by simp), hs⟩ hany
      rw [if_neg fun hno => hnone (List.Perm.refl _) hno.2,
        if_neg fun hno => hnone hperm.symm hno.2]

/-- Sources that agree on every message of the file leave the same file in any order. -/
theorem mains_order {stdins stdins' : List Text} {lang infile : Text} {fs : FileSystem}
    (prog : Text) (hperm : stdins.Perm stdins') (hfile : fs lang = some infile)
    (h : Mergeable infile stdins) (h' : Mergeable infile stdins')
    (hagree : ∀ block ∈ (readBlocks infile).1, ∀ strings ∈ block.message,
      Agree (stdins.map sourceOf) strings.1) :
    ∃ fs₁ fs₂ reports₁ reports₂, mains prog lang stdins fs = .ok (fs₁, reports₁) ∧
      mains prog lang stdins' fs = .ok (fs₂, reports₂) ∧ fs₁ lang = fs₂ lang := by
  by_cases hne : stdins = []
  · have hne' : stdins' = [] := List.perm_nil.mp (hne ▸ hperm.symm)
    rw [hne, hne']
    exact ⟨fs, fs, [], [], rfl, rfl, rfl⟩
  have hne' : stdins' ≠ [] := fun hnil => hne (List.perm_nil.mp (hnil ▸ hperm))
  obtain ⟨fs₁, reports₁, out₁, hrun₁, hfile₁, hout₁, hread₁⟩ := mains_blocks prog hfile h
  obtain ⟨fs₂, reports₂, out₂, hrun₂, hfile₂, hout₂, hread₂⟩ := mains_blocks prog hfile h'
  refine ⟨fs₁, fs₂, reports₁, reports₂, hrun₁, hrun₂, ?_⟩
  rw [updateBlocks_all] at hread₁ hread₂
  rw [hfile₁, hfile₂, hout₁ hne, hout₂ hne', hread₁, hread₂]
  congr 2
  apply List.map_congr_left
  intro block hblock
  exact updateBlock_perm (hperm.map sourceOf) (hagree block hblock)

/-- Two messages, and a source for each of them. -/
def paired : Text :=
  text "# a\nmsgid \"a\"\nmsgstr \"\"\n\n# b\n#, fuzzy\nmsgid \"b\"\nmsgstr \"\"\n"

def apart : List Text :=
  [text "msgid \"a\"\nmsgstr \"x\"\n", text "#, c-format\nmsgid \"b\"\nmsgstr \"y\"\n"]

theorem mergeable_apart : Mergeable paired apart ∧ Mergeable paired apart.reverse :=
  ⟨⟨rfl, by decide, by decide, by decide⟩, ⟨rfl, by decide, by decide, by decide⟩⟩

theorem mains_order_apart : ∃ fs₁ fs₂ reports₁ reports₂,
    mains (text "po-merge.py") (text "lang.po") apart (inFile paired) = .ok (fs₁, reports₁) ∧
      mains (text "po-merge.py") (text "lang.po") apart.reverse (inFile paired) =
        .ok (fs₂, reports₂) ∧ fs₁ (text "lang.po") = fs₂ (text "lang.po") :=
  mains_order (text "po-merge.py") (List.reverse_perm apart).symm rfl mergeable_apart.1
    mergeable_apart.2 (by decide)

/-! ## The report -/

/-- A message block the merge leaves without a translation. -/
def isUntranslated (block : Block) : Bool :=
  match block.message with
  | none => false
  | some (_, msgstr) => msgstr = emptyString

theorem foldl_untranslated (source : Source) : ∀ (bs : List Block) (st : MergeState),
    (bs.foldl (mergeBlock source) st).untranslated = st.untranslated +
      (bs.map (updateBlock source)).countP isUntranslated := by
  intro bs
  induction bs with
  | nil =>
    intro st
    rfl
  | cons block bs ih =>
    intro st
    have hturn : (mergeBlock source st block).untranslated = st.untranslated +
        if isUntranslated (updateBlock source block) then 1 else 0 := by
      obtain ⟨comments, message⟩ := block
      cases message with
      | none => rfl
      | some strings =>
        obtain ⟨msgid, msgstr⟩ := strings
        obtain ⟨m, hm⟩ := updateMessage_eq source comments msgid msgstr st.updateCount
        rw [updateBlock_some, mergeBlock]
        simp only
        rw [hm]
        simp only [isUntranslated, decide_eq_true_eq]
        split_ifs <;> rfl
    rw [List.foldl_cons, ih, hturn, List.map_cons, List.countP_cons]
    omega

theorem mergeBlock_updateCount (source : Source) (block : Block) :
    (mergeBlock source startState block).updateCount =
      if updateBlock source block = block then 0 else 1 := by
  obtain ⟨comments, message⟩ := block
  cases message with
  | none =>
    rw [updateBlock_none, if_pos rfl]
    rfl
  | some strings =>
    obtain ⟨msgid, msgstr⟩ := strings
    have hiff := updateMessage_count_iff source comments msgid msgstr 0
    have hblock : updateBlock source ⟨comments, some (msgid, msgstr)⟩ =
        ⟨comments, some (msgid, msgstr)⟩ ↔
          replaced source comments msgid msgstr = (comments, msgstr) := by
      rw [updateBlock_some, Block.mk.injEq, Option.some.injEq, Prod.mk.injEq, Prod.ext_iff]
      simp
    rw [mergeBlock_count]
    show (updateMessage source comments msgid msgstr 0).2.2 = _
    by_cases h : replaced source comments msgid msgstr = (comments, msgstr)
    · rw [if_pos (hblock.mpr h)]
      exact hiff.mpr h
    · have hle : (updateMessage source comments msgid msgstr 0).2.2 ≤ 1 := by
        simp only [updateMessage]
        split_ifs <;> simp
      have hne := mt hiff.mp h
      rw [if_neg fun hb => h (hblock.mp hb)]
      omega

theorem stateAfter_updateCount (source : Source) (bs : List Block) :
    (stateAfter source bs).updateCount =
      bs.countP fun block => updateBlock source block ≠ block := by
  induction bs with
  | nil => rfl
  | cons block bs ih =>
    rw [stateAfter, List.foldl_cons, foldl_updateCount, mergeBlock_updateCount, ih,
      List.countP_cons, Nat.add_comm]
    congr 1
    by_cases h : updateBlock source block = block
    · simp [h]
    · simp [h]

/-- A merge takes no translation away. -/
theorem isUntranslated_updateBlock {source : Source} {block : Block}
    (h : isUntranslated (updateBlock source block)) : isUntranslated block := by
  obtain ⟨comments, message⟩ := block
  cases message with
  | none => exact h
  | some strings =>
    obtain ⟨msgid, msgstr⟩ := strings
    rw [updateBlock_some] at h
    by_cases hreplaced : msgid ≠ emptyString ∧ (source.get msgid).1 ≠ emptyString
    · rw [replaced, if_pos hreplaced] at h
      exact absurd (of_decide_eq_true h) hreplaced.2
    · rwa [replaced, if_neg hreplaced] at h

theorem report_counts {prog lang stdin infile : Text} {fs fs' : FileSystem}
    {report : Report} (hfile : fs lang = some infile)
    (h : main [prog, lang] stdin fs = (fs', .ok report)) :
    report.stringCount = (messages (readBlocks infile).1).length ∧
      report.updateCount = ((readBlocks infile).1.countP fun block =>
        updateBlock (sourceOf stdin) block ≠ block) ∧
      report.untranslated = ((readBlocks infile).1.map (updateBlock (sourceOf stdin))).countP
        isUntranslated := by
  rw [main_report hfile h]
  refine ⟨stateAfter_stringCount _ _, stateAfter_updateCount _ _, ?_⟩
  show (stateAfter (sourceOf stdin) (readBlocks infile).1).untranslated = _
  rw [stateAfter, foldl_untranslated]
  exact Nat.zero_add _

/-- The report of a run that completes: the messages of the file, those among them that
are not written as they were read, and those that are without a translation in the new
file; there were no fewer of these before. -/
theorem main_report_exact {prog lang stdin infile : Text} {fs fs' : FileSystem}
    {report : Report} (hfile : fs lang = some infile)
    (h : main [prog, lang] stdin fs = (fs', .ok report)) :
    report.stringCount = (messages (readBlocks infile).1).length ∧
      report.updateCount = ((readBlocks infile).1.countP fun block =>
        updateBlock (sourceOf stdin) block ≠ block) ∧
      report.untranslated = ((readBlocks infile).1.map (updateBlock (sourceOf stdin))).countP
        isUntranslated ∧
      report.untranslated ≤ (readBlocks infile).1.countP isUntranslated := by
  obtain ⟨hstrings, hupdates, hun⟩ := report_counts hfile h
  refine ⟨hstrings, hupdates, hun, ?_⟩
  rw [hun, List.countP_map]
  exact List.countP_mono_left fun block _ hblock => isUntranslated_updateBlock hblock

theorem main_report_exact_commented : ∃ fs' report,
    main [text "po-merge.py", text "lang.po"] translations (inFile commented) =
        (fs', .ok report) ∧
      report.stringCount = (messages (readBlocks commented).1).length ∧
      report.updateCount = ((readBlocks commented).1.countP fun block =>
        updateBlock (sourceOf translations) block ≠ block) ∧
      report.untranslated = ((readBlocks commented).1.map
        (updateBlock (sourceOf translations))).countP isUntranslated ∧
      report.untranslated ≤ (readBlocks commented).1.countP isUntranslated := by
  have hrun : main [text "po-merge.py", text "lang.po"] translations (inFile commented) =
      ((main [text "po-merge.py", text "lang.po"] translations (inFile commented)).1,
        .ok ⟨2, 0, 2⟩) := rfl
  have hfile : inFile commented (text "lang.po") = some commented := rfl
  exact ⟨_, _, hrun, main_report_exact hfile hrun⟩

/-! ## The same source again -/

theorem main_messages_ne {prog lang stdin infile : Text} {fs fs' : FileSystem}
    {report : Report} (hfile : fs lang = some infile)
    (h : main [prog, lang] stdin fs = (fs', .ok report)) :
    messages (readBlocks infile).1 ≠ [] := by
  obtain ⟨hs, hi, _⟩ := main_completes hfile h
  intro hnil
  rw [main_of_file hs hfile, hi, stateAfter_stringCount, hnil] at h
  cases h

theorem updateBlock_idempotent (stdin : Text) (block : Block) :
    updateBlock (sourceOf stdin) (updateBlock (sourceOf stdin) block) =
      updateBlock (sourceOf stdin) block := by
  rw [updateBlock_updateBlock (sourceOf_flagsOnly stdin), overriding_self]

/-- A second merge of the same source leaves the file as it is and has nothing to
update, when each block of the file returns. -/
theorem main_again {prog lang stdin infile : Text} {fs fs' : FileSystem} {report : Report}
    (hfile : fs lang = some infile) (h : main [prog, lang] stdin fs = (fs', .ok report))
    (hreturns : ∀ block ∈ (readBlocks infile).1, Returns (sourceOf stdin) block) :
    ∃ fs'', main [prog, lang] stdin fs' =
        (fs'', .ok ⟨0, report.untranslated, report.stringCount⟩) ∧
      fs'' lang = fs' lang ∧ fs'' (lang ++ text ".bak") = fs' lang := by
  obtain ⟨hs, hi, hfile'⟩ := main_completes hfile h
  change fs' lang = some (merged stdin infile) at hfile'
  have hread := readBlocks_merged hreturns
  have hfix : (readBlocks (merged stdin infile)).1.map (updateBlock (sourceOf stdin)) =
      (readBlocks (merged stdin infile)).1 := by
    rw [hread, List.map_map]
    exact List.map_congr_left fun block _ => updateBlock_idempotent stdin block
  have hmessages : messages (readBlocks (merged stdin infile)).1 ≠ [] := by
    rw [hread, messages_map]
    exact fun hnil => main_messages_ne hfile h (List.map_eq_nil_iff.mp hnil)
  obtain ⟨fs'', report', hrun, hfile'', hbak⟩ := main_ok prog hfile' hs (by rw [hread]) hmessages
  have hcounts := report_counts hfile h
  have hcounts' := report_counts hfile' hrun
  have hreport : report' = ⟨0, report.untranslated, report.stringCount⟩ := by
    obtain ⟨updateCount, untranslated, stringCount⟩ := report'
    obtain ⟨hstrings, hupdates, hun⟩ := hcounts'
    simp only at hstrings hupdates hun
    rw [hfix] at hun
    rw [hread] at hstrings hupdates hun
    rw [messages_map, List.length_map, ← hcounts.1] at hstrings
    rw [← hcounts.2.2] at hun
    rw [hstrings, hun, hupdates, List.countP_map, Report.mk.injEq, List.countP_eq_zero]
    refine ⟨fun block _ => ?_, rfl, rfl⟩
    simp [updateBlock_idempotent]
  rw [hreport] at hrun
  refine ⟨fs'', hrun, ?_, by rw [hbak, hfile']⟩
  rw [hfile'', hfile', merged, hfix, hread]
  rfl

theorem main_again_commented : ∃ fs' fs'' report,
    main [text "po-merge.py", text "lang.po"] translations (inFile commented) =
        (fs', .ok report) ∧
      main [text "po-merge.py", text "lang.po"] translations fs' =
        (fs'', .ok ⟨0, report.untranslated, report.stringCount⟩) ∧
      fs'' (text "lang.po") = fs' (text "lang.po") ∧
      fs'' (text "lang.po" ++ text ".bak") = fs' (text "lang.po") := by
  have hrun : main [text "po-merge.py", text "lang.po"] translations (inFile commented) =
      ((main [text "po-merge.py", text "lang.po"] translations (inFile commented)).1,
        .ok ⟨2, 0, 2⟩) := rfl
  have hfile : inFile commented (text "lang.po") = some commented := rfl
  obtain ⟨fs'', hagain⟩ := main_again hfile hrun (by decide)
  exact ⟨_, fs'', _, hrun, hagain⟩

end Merge
end Po
end I18nZh
