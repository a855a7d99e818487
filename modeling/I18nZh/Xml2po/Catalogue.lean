import I18nZh.Xml2po.Pot

/-!
# The catalogue

What a `MessageOutput` holds after any messages: each of them once, in the order in
which they came, with all its references and its first comment.
-/

namespace I18nZh
namespace Xml2po

open Po (Text text strip)

/-- A message that is not blank, by its string in the catalogue. -/
structure Said where
  t : Text
  reference : Reference
  comment : Option Text
  spacepreserve : Bool
  deriving DecidableEq, Repr

/-- A call of `outputMessage` while `filename` is read. -/
def said (normalize : Text → Bool → Text) (filename : Text) (call : Call) : Option Said :=
  if strip call.text ≠ [] then
    some ⟨escapePoString (normalize call.text (!call.spacepreserve)),
      ⟨filename, call.tag, call.lineno⟩, call.comment, call.spacepreserve⟩
  else none

/-- The comment a message brings, unless it is empty. -/
def Said.comment? (o : Said) : Option Text := if o.comment = some [] then none else o.comment

/-- What was said of a message. -/
def about (t : Text) (os : List Said) : List Said := os.filter fun o => o.t = t

theorem about_append (t : Text) (os : List Said) (o : Said) :
    about t (os ++ [o]) = if o.t = t then about t os ++ [o] else about t os := by
  rw [about, List.filter_append]
  by_cases h : o.t = t
  · rw [if_pos h, List.filter_cons_of_pos (by simpa using h)]
    rfl
  · rw [if_neg h, List.filter_cons_of_neg (by simpa using h), List.filter_nil, List.append_nil]
    rfl

/-- The messages `os`, in this order, are what is in the catalogue. -/
structure Catalogue (os : List Said) (msg : MessageOutput) : Prop where
  messages : msg.messages = (os.map Said.t).eraseDups
  linenos : ∀ t, msg.linenos t = (about t os).map Said.reference
  comments : ∀ t, msg.comments t = (about t os).findSome? Said.comment?
  nowrap : ∀ t, msg.nowrap t = (about t os).head?.any Said.spacepreserve
  mode : msg.doTranslations = false ∧ msg.outputMsgstr = false ∧ msg.translations = []

namespace Catalogue

theorem new : Catalogue [] (MessageOutput.new false) :=
  ⟨rfl, fun _ => rfl, fun _ => rfl, fun _ => rfl, rfl, rfl, rfl⟩

variable {os : List Said} {msg : MessageOutput} (h : Catalogue os msg)

include h

theorem setFilename (filename : Text) : Catalogue os (msg.setFilename filename) :=
  ⟨h.messages, h.linenos, h.comments, h.nowrap, h.mode⟩

theorem mem_messages {t : Text} : t ∈ msg.messages ↔ about t os ≠ [] := by
  rw [h.messages, List.mem_eraseDups, List.mem_map, about, Ne, List.filter_eq_nil_iff]
  push Not
  simp

theorem addReference (t : Text) (call : Call) (k : Text) :
    msg.addReference t call k = (about k os).map Said.reference ++
      if t = k then [⟨msg.filename, call.tag, call.lineno⟩] else [] := by
  rw [MessageOutput.addReference]
  by_cases hk : k = t
  · rw [hk, Function.update_self, h.linenos, if_pos rfl]
  · rw [Function.update_of_ne hk, h.linenos, if_neg fun ht => hk ht.symm, List.append_nil]

theorem addComment (t : Text) (call : Call) (k : Text) :
    msg.addComment t call k = ((about k os).findSome? Said.comment?).or
      (if t = k then (if call.comment = some [] then none else call.comment) else none) := by
  rw [MessageOutput.addComment, ← h.comments k]
  cases hcomment : call.comment with
  | none => simp
  | some comment =>
    simp only [Option.some.injEq]
    by_cases hk : t = k
    · subst hk
      by_cases hempty : comment = []
      · simp [hempty]
      · cases hmsg : msg.comments t with
        | none => simp [hempty]
        | some c => simp [hmsg]
    · rw [if_neg hk, Option.or_none]
      split_ifs
      · rw [Function.update_of_ne fun hkt => hk hkt.symm]
      · rfl

theorem addNowrap (call : Call) {t : Text} (hnew : t ∉ msg.messages) (k : Text) :
    (if call.spacepreserve then Function.update msg.nowrap t true else msg.nowrap) k =
      (if t = k then call.spacepreserve else (about k os).head?.any Said.spacepreserve) := by
  by_cases hk : t = k
  · subst hk
    have hnil : about t os = [] := by
      by_contra hne
      exact hnew (h.mem_messages.mpr hne)
    cases hspace : call.spacepreserve with
    | true => simp
    | false => simp [h.nowrap, hnil]
  · rw [if_neg hk, ← h.nowrap]
    split_ifs
    · rw [Function.update_of_ne fun hkt => hk hkt.symm]
    · rfl

/-- One more message. -/
theorem outputMessage (normalize : Text → Bool → Text) (call : Call) :
    Catalogue (os ++ (said normalize msg.filename call).toList)
      (msg.outputMessage normalize call) := by
  rw [MessageOutput.outputMessage, said]
  by_cases hblank : strip call.text ≠ []
  · rw [if_pos hblank, if_pos hblank, Option.toList_some]
    have hpot : ¬msg.outputMsgstr = true := by simp [h.mode.2.1]
    generalize escapePoString (normalize call.text (!call.spacepreserve)) = t
    simp only [if_neg hpot]
    have hlinenos : ∀ k, msg.addReference t call k =
        (about k (os ++ [⟨t, ⟨msg.filename, call.tag, call.lineno⟩, call.comment,
          call.spacepreserve⟩])).map Said.reference := by
      intro k
      rw [h.addReference, about_append]
      split_ifs
      · rw [List.map_append]
        rfl
      · rw [List.append_nil]
    have hcomments : ∀ k, msg.addComment t call k =
        (about k (os ++ [⟨t, ⟨msg.filename, call.tag, call.lineno⟩, call.comment,
          call.spacepreserve⟩])).findSome? Said.comment? := by
      intro k
      rw [h.addComment, about_append]
      split_ifs with hk hempty
      · rw [List.findSome?_append]
        simp [Said.comment?, hempty]
      · rw [List.findSome?_append]
        simp [Said.comment?, hempty]
      · rw [Option.or_none]
    by_cases hnew : t ∈ msg.messages
    · rw [if_neg (by simp [h.mode.1, hnew])]
      refine ⟨?_, hlinenos, hcomments, ?_, h.mode⟩
      · rw [List.map_append, List.map_singleton, eraseDups_concat, ← h.messages, if_pos hnew]
      · intro k
        rw [about_append]
        split_ifs with hk
        · subst hk
          rw [List.head?_append_of_ne_nil _ (h.mem_messages.mp hnew)]
          exact h.nowrap t
        · exact h.nowrap k
    · rw [if_pos (by simp [hnew])]
      refine ⟨?_, hlinenos, ?_, ?_, h.mode⟩
      · rw [List.map_append, List.map_singleton, eraseDups_concat, ← h.messages, if_neg hnew]
      · intro k
        rw [← hcomments k]
        simp only [h.mode.1, Bool.false_eq_true, if_false]
      · intro k
        refine (h.addNowrap call hnew k).trans ?_
        rw [about_append]
        split_ifs with hk
        · subst hk
          have hnil : about t os = [] := by
            by_contra hne
            exact hnew (h.mem_messages.mpr hne)
          rw [hnil]
          rfl
        · rfl
  · rw [if_neg hblank, if_neg hblank, Option.toList_none, List.append_nil]
    exact h

end Catalogue

end Xml2po
end I18nZh
