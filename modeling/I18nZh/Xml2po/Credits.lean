import I18nZh.Xml2po.Docbook
import I18nZh.Xml2po.Translate

/-!
# Translators

What the mode `docbook` does to a merged document: the language of the root, and a
copyright for each translator behind the copyrights that are there.
-/

namespace I18nZh
namespace Xml2po
namespace DocbookXmlMode

open Po (Text text strip isSpace)

/-! ## Credits -/

/-- `unicode.isspace` -/
def isSpaceUnicode (c : Char) : Bool :=
  isSpace c || [0x1c, 0x1d, 0x1e, 0x1f, 0x85, 0xa0, 0x1680, 0x180e, 0x2028, 0x2029, 0x202f,
    0x205f, 0x3000].contains c.toNat || (0x2000 ≤ c.toNat && c.toNat ≤ 0x200a)

/-- The method `strip` of a string of either kind. -/
def stripString (unicode : Bool) (line : Text) : Text :=
  if unicode then (line.dropWhile isSpaceUnicode).rdropWhile isSpaceUnicode else strip line

/-- The groups of the pattern.  The second one may be left out; it is empty then. -/
structure Credit where
  name : Text
  email : Text
  years : Text
  deriving DecidableEq, Repr

/-- `re.match` with `^([^<,]+)\s*(?:<([^>,]+)>)?,\s*(.*)$`: the first group takes the white
space in front of the second one, so nothing is left for the first `\s*`. -/
def matchCredit (line : Text) : Option Credit :=
  let name := line.takeWhile fun c => c ≠ '<' && c ≠ ','
  if name = [] then none
  else match line.dropWhile fun c => c ≠ '<' && c ≠ ',' with
    | ',' :: years => some ⟨name, [], years.dropWhile isSpace⟩
    | '<' :: rest =>
      let email := rest.takeWhile fun c => c ≠ '>' && c ≠ ','
      if email = [] then none
      else match rest.dropWhile fun c => c ≠ '>' && c ≠ ',' with
        | '>' :: ',' :: years => some ⟨name, email, years.dropWhile isSpace⟩
        | _ => none
    | _ => none

/-- Only the first two cases are taken, as a group holds a character. -/
def Credit.holder (credit : Credit) : Text :=
  if credit.name ≠ [] ∧ credit.email ≠ [] then credit.name ++ text "(" ++ credit.email ++ text ")"
  else if credit.name ≠ [] then credit.name
  else if credit.email ≠ [] then credit.email
  else text "???"

/-! ## Nodes -/

/-- `newNode` -/
def newNode (name : Text) (children : List Node) : Node :=
  .mk ⟨.element, name, [], [], 0, false⟩ children

/-- `nodeList` is what `newChild` makes of a content. -/
def Credit.copyright (nodeList : Text → List Node) (unicode : Bool) (credit : Credit) :
    Except Error Node := do
  let year ← (
    if credit.years ≠ [] then do
      let years ← PyString.encode ⟨unicode, credit.years⟩
      return [newNode (text "year") (nodeList years.chars)]
    else return [] : Except Error (List Node))
  let holder ← PyString.encode ⟨unicode, credit.holder⟩
  return newNode (text "copyright") (year ++ [newNode (text "holder") (nodeList holder.chars)])

/-- `_find_lastcopyright`, and the node put behind it.  Without a copyright it is put behind
the last child. -/
def addCopyright (children : List Node) (copy : Node) : List Node :=
  let back := children.rtakeWhile fun child => child.name ≠ text "copyright"
  match children.rdropWhile fun child => child.name ≠ text "copyright" with
  | [] => children ++ [copy]
  | front => front ++ copy :: back

/-- The body of the loop over the lines. -/
def addTranslator (nodeList : Text → List Node) (unicode : Bool) (children : List Node)
    (line : Text) : Except Error (List Node) :=
  match matchCredit (stripString unicode line) with
  | none => return children
  | some credit => do
    let copy ← credit.copyright nodeList unicode
    return addCopyright children copy

/-! ## The information about a document -/

def isArticleinfo (node : Node) : Bool :=
  node.name = text "articleinfo" || node.name = text "bookinfo" || node.name = text "info"

mutual

/-- `_find_articleinfo`, with the place where the node stands. -/
def findArticleinfo (frames : List Frame) (node : Node) : Option (List Frame × Node) :=
  match node with
  | .mk info children =>
    if isArticleinfo (.mk info children) then some (frames, .mk info children)
    else findInChildren frames info [] children
termination_by structural node

def findInChildren (frames : List Frame) (info : Info) (done : List Node)
    (children : List Node) : Option (List Frame × Node) :=
  match children with
  | [] => none
  | child :: rest =>
    match findArticleinfo (⟨info, done, rest⟩ :: frames) child with
    | some ret => some ret
    | none => findInChildren frames info (done ++ [child]) rest
termination_by structural children

end

/-- The tree around a node. -/
def plug : List Frame → Node → Node
  | [], node => node
  | frame :: frames, node => plug frames (frame.fill node)

/-- What is done for the translators. -/
def addTranslators (nodeList : Text → List Node) (translators : Option PyString) (root : Node) :
    Except Error Node :=
  match translators with
  | none => .ok root
  | some s =>
    if s.chars = getStringForTranslators ∨ s.chars = [] then .ok root
    else match findArticleinfo [] root with
      | none => .ok root
      | some (frames, ai) => do
        let children ← (s.chars.splitOn '\n').foldlM (addTranslator nodeList s.unicode) ai.children
        return plug frames (.mk ai.info children)

def isArticle (node : Node) : Bool := node.name = text "article" || node.name = text "book"

/-- The language is set for an element only. -/
def postProcessRoot (nodeList : Text → List Node) (language : Text)
    (translators : Option PyString) (root : Node) : Except Error Node :=
  if root.type = .element then
    addTranslators nodeList translators (root.setProp (text "lang") language)
  else .error .treeError

/-- The loop to an article or a book, from the root on. -/
def postProcessFrom (nodeList : Text → List Node) (language : Text)
    (translators : Option PyString) : List Node → Except Error (List Node)
  | [] => .ok []
  | root :: rest =>
    if isArticle root then do
      let root ← postProcessRoot nodeList language translators root
      return root :: rest
    else do
      let rest ← postProcessFrom nodeList language translators rest
      return root :: rest

def postProcessXmlTranslation (nodeList : Text → List Node) (doc : Node) (language : Text)
    (translators : Option PyString) : Except Error Node :=
  match doc.children.dropWhile fun child => child.type ≠ .element with
  | [] => .error .treeError
  | roots => do
    let roots ← postProcessFrom nodeList language translators roots
    return .mk doc.info ((doc.children.takeWhile fun child => child.type ≠ .element) ++ roots)

/-! ## The pattern -/

/-- The parts of a line that matches. -/
def Credit.Matches (credit : Credit) (line : Text) : Prop :=
  credit.name ≠ [] ∧ (∀ c ∈ credit.name, c ≠ '<' ∧ c ≠ ',') ∧
  (∀ c ∈ credit.email, c ≠ '>' ∧ c ≠ ',') ∧ credit.years = credit.years.dropWhile isSpace ∧
  ∃ blanks, (∀ c ∈ blanks, isSpace c = true) ∧ line = credit.name ++
    (if credit.email = [] then [','] else '<' :: credit.email ++ ['>', ',']) ++
    blanks ++ credit.years

section Pattern

variable {α : Type} {p : α → Bool}

theorem takeWhile_stop {s : List α} {c : α} {t : List α} (hs : ∀ d ∈ s, p d = true)
    (hc : p c = false) : (s ++ c :: t).takeWhile p = s ∧ (s ++ c :: t).dropWhile p = c :: t := by
  have hstop : ¬p c = true := by
    rw [hc]
    exact Bool.false_ne_true
  constructor
  · rw [List.takeWhile_append_of_pos hs, List.takeWhile_cons_of_neg hstop, List.append_nil]
  · rw [List.dropWhile_append_of_pos hs, List.dropWhile_cons_of_neg hstop]

theorem takeWhile_dropWhile {s : List α} {c : α} {t : List α} (h : s.dropWhile p = c :: t) :
    s = s.takeWhile p ++ c :: t ∧ ∀ d ∈ s.takeWhile p, p d = true := by
  constructor
  · rw [← h, List.takeWhile_append_dropWhile]
  · exact fun d hd => List.mem_takeWhile_imp hd

end Pattern

theorem blanks_years (s : Text) :
    s.dropWhile isSpace = (s.dropWhile isSpace).dropWhile isSpace ∧
    ∃ blanks, (∀ c ∈ blanks, isSpace c = true) ∧ s = blanks ++ s.dropWhile isSpace :=
  ⟨(List.dropWhile_idempotent isSpace s).symm, s.takeWhile isSpace,
    fun _ hc => List.mem_takeWhile_imp hc, List.takeWhile_append_dropWhile.symm⟩

theorem dropWhile_blanks {blanks years : Text} (hblanks : ∀ c ∈ blanks, isSpace c = true)
    (hyears : years = years.dropWhile isSpace) : (blanks ++ years).dropWhile isSpace = years := by
  rw [List.dropWhile_append_of_pos hblanks]
  exact hyears.symm

theorem Credit.Matches.of_matchCredit {line : Text} {credit : Credit}
    (h : matchCredit line = some credit) : credit.Matches line := by
  rw [matchCredit] at h
  split_ifs at h with hname
  split at h
  case h_1 years hrest =>
    obtain ⟨hline, htake⟩ := takeWhile_dropWhile hrest
    obtain ⟨hyears, blanks, hblanks, hsplit⟩ := blanks_years years
    obtain rfl := Option.some.inj h
    refine ⟨hname, fun c hc => by simpa using htake c hc, fun c hc => absurd hc List.not_mem_nil,
      hyears, blanks, hblanks, ?_⟩
    rw [if_pos rfl, List.append_assoc, List.append_assoc, ← hsplit]
    exact hline
  case h_2 rest hrest =>
    obtain ⟨hline, htake⟩ := takeWhile_dropWhile hrest
    dsimp only at h
    split_ifs at h with hemail
    split at h
    case h_1 years hyear =>
      obtain ⟨hline', htake'⟩ := takeWhile_dropWhile hyear
      obtain ⟨hyears, blanks, hblanks, hsplit⟩ := blanks_years years
      obtain rfl := Option.some.inj h
      refine ⟨hname, fun c hc => by simpa using htake c hc,
        fun c hc => by simpa using htake' c hc, hyears, blanks, hblanks, ?_⟩
      rw [if_neg hemail, List.append_assoc, List.append_assoc, ← hsplit, List.append_assoc]
      exact hline.trans (congrArg (fun t => _ ++ '<' :: t) hline')
    case h_2 => cases h
  case h_3 => cases h

theorem Credit.Matches.matchCredit {line : Text} {credit : Credit} (h : credit.Matches line) :
    matchCredit line = some credit := by
  obtain ⟨hname, hname', hemail, hyears, blanks, hblanks, hline⟩ := h
  have hin : ∀ c ∈ credit.name, (decide (c ≠ '<') && decide (c ≠ ',')) = true :=
    fun c hc => by simpa using hname' c hc
  have hin' : ∀ c ∈ credit.email, (decide (c ≠ '>') && decide (c ≠ ',')) = true :=
    fun c hc => by simpa using hemail c hc
  rw [DocbookXmlMode.matchCredit]
  by_cases hnone : credit.email = []
  · rw [if_pos hnone, List.append_assoc, List.append_assoc] at hline
    obtain ⟨htake, hdrop⟩ := takeWhile_stop (t := blanks ++ credit.years) hin (c := ',') rfl
    have hsplit : line = credit.name ++ ',' :: (blanks ++ credit.years) := hline
    rw [hsplit, htake, hdrop, if_neg hname]
    show some (Credit.mk _ _ _) = _
    rw [dropWhile_blanks hblanks hyears, ← hnone]
  · have hsplit : line = credit.name ++ '<' :: (credit.email ++ '>' :: ',' ::
        (blanks ++ credit.years)) := by
      rw [hline, if_neg hnone]
      simp
    obtain ⟨htake, hdrop⟩ := takeWhile_stop
      (t := credit.email ++ '>' :: ',' :: (blanks ++ credit.years)) hin (c := '<') rfl
    obtain ⟨htake', hdrop'⟩ := takeWhile_stop (t := ',' :: (blanks ++ credit.years)) hin'
      (c := '>') rfl
    rw [hsplit, htake, hdrop, if_neg hname]
    simp only
    rw [htake', hdrop', if_neg hnone]
    show some (Credit.mk _ _ _) = _
    rw [dropWhile_blanks hblanks hyears]

theorem matchCredit_eq_some_iff {line : Text} {credit : Credit} :
    matchCredit line = some credit ↔ credit.Matches line :=
  ⟨Credit.Matches.of_matchCredit, Credit.Matches.matchCredit⟩

end DocbookXmlMode
end Xml2po
end I18nZh
