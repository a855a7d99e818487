import I18nZh.Po.Blocks
import I18nZh.Xml2po.Messages
import I18nZh.Xml2po.Translate

/-!
# What a translation cannot change

Where elements of the tree have been replaced by others, the nodes behind them are still
treated in the same way: no test looks into an element that has been replaced.
-/

namespace I18nZh
namespace Xml2po

open Po (Text text strip)

/-! ## Edited nodes -/

/-- The same child, or one for another where no text stood or stands. -/
def Swapped (a b : Node) : Prop := a = b ∨ (a.type ≠ .text ∧ b.type ≠ .text)

/-- The node with other children for some of its children. -/
structure Edited (a b : Node) : Prop where
  info : a.info = b.info
  children : List.Forall₂ Swapped a.children b.children

/-- The same place; only elements and the document have children. -/
structure Frame.Edited (f g : Frame) : Prop where
  info : f.info = g.info
  type : f.info.type = .element ∨ f.info.type = .document
  before : List.Forall₂ Swapped f.before g.before
  after : f.after = g.after

theorem Swapped.refl (a : Node) : Swapped a a := Or.inl rfl

theorem swapped_refl : ∀ children : List Node, List.Forall₂ Swapped children children := by
  intro children
  induction children with
  | nil => exact .nil
  | cons child rest ih => exact .cons (Swapped.refl child) ih

theorem Edited.refl (a : Node) : Edited a a := ⟨rfl, swapped_refl a.children⟩

theorem swapped_append {as bs cs ds : List Node} (h : List.Forall₂ Swapped as bs) :
    List.Forall₂ Swapped cs ds → List.Forall₂ Swapped (as ++ cs) (bs ++ ds) := by
  intro hrest
  induction h with
  | nil => exact hrest
  | cons hchild _ ih => exact .cons hchild ih

theorem Frame.Edited.fill {f g : Frame} (h : f.Edited g) {a b : Node} (hab : Swapped a b) :
    Xml2po.Edited (f.fill a) (g.fill b) := by
  refine ⟨h.info, swapped_append h.before (.cons hab ?_)⟩
  rw [h.after]
  exact swapped_refl g.after

theorem Frame.Edited.swapped {f g : Frame} (h : f.Edited g) (a b : Node) :
    Swapped (f.fill a) (g.fill b) := by
  have hf : f.info.type ≠ .text := by
    rcases h.type with htype | htype
    · rw [htype]; decide
    · rw [htype]; decide
  have hg : g.info.type ≠ .text := by
    rw [← h.info]
    exact hf
  exact Or.inr ⟨hf, hg⟩

theorem above_edited {frames gs : List Frame} (h : List.Forall₂ Frame.Edited frames gs) :
    ∀ {a b : Node}, Swapped a b → List.Forall₂ Edited (above frames a) (above gs b) := by
  induction h with
  | nil =>
    intro a b _
    exact .nil
  | cons hframe _ ih =>
    intro a b hab
    exact .cons (hframe.fill hab) (ih (hframe.swapped a b))

section Stable

variable {options : Options}

/-! ## The tests -/

theorem any_text {as bs : List Node} (h : List.Forall₂ Swapped as bs) :
    (as.any fun child => child.type = .text && strip child.content ≠ []) =
      bs.any fun child => child.type = .text && strip child.content ≠ [] := by
  induction h with
  | nil => rfl
  | cons hchild _ ih =>
    rw [List.any_cons, List.any_cons, ih]
    rcases hchild with rfl | ⟨ha, hb⟩
    · rfl
    · simp [ha, hb]

theorem Edited.auto {a b : Node} (h : Edited a b) :
    autoNodeIsFinal options a = autoNodeIsFinal options b := by
  have hname : a.name = b.name := congrArg Info.name h.info
  have hcontent : a.content = b.content := congrArg Info.content h.info
  have htext : isText a = isText b := by
    rw [isText, isText, Node.type, Node.type, h.info]
  rw [autoNodeIsFinal, autoNodeIsFinal, hname, htext, hcontent, any_text h.children]

theorem not_auto_edited {as bs : List Node} (h : List.Forall₂ Edited as bs) :
    (as.all fun parent => !autoNodeIsFinal options parent) =
      bs.all fun parent => !autoNodeIsFinal options parent := by
  induction h with
  | nil => rfl
  | cons hab _ ih => rw [List.all_cons, List.all_cons, ih, hab.auto]

/-- With `-a` only the texts are looked at. -/
theorem isFinalNode_edited (hautomatic : options.automatic = true) {as bs : List Node}
    (h : List.Forall₂ Edited as bs) {a b : Node} (hab : Edited a b) :
    isFinalNode options as a = isFinalNode options bs b := by
  rw [isFinalNode, isFinalNode, if_pos hautomatic, if_pos hautomatic, hab.auto,
    not_auto_edited h]

theorem climb_automatic (hautomatic : options.automatic = true) {as bs : List Node}
    (h : List.Forall₂ Edited as bs) : climb options false as = climb options false bs := by
  induction h with
  | nil => rfl
  | cons hab hrest ih =>
    rw [climb_false_cons, climb_false_cons, isFinalNode_edited hautomatic hrest hab, hab.auto, ih]

/-- A child that keeps its parent from being final by its children. -/
structure Keeps (options : Options) (child : Node) : Prop where
  blank : isBlankNode child = false
  comment : child.type ≠ .comment
  final : tagsFinal options child = false

theorem allFinal_keeps {child : Node} (h : Keeps options child) :
    ∀ {children : List Node}, child ∈ children → allFinal options children = false := by
  intro children
  induction children with
  | nil =>
    intro hmem
    cases hmem
  | cons c rest ih =>
    intro hmem
    rw [allFinal]
    rcases List.mem_cons.mp hmem with rfl | hmem
    · simp [h.blank, h.comment, h.final]
    · rw [ih hmem, Bool.and_false]

/-- Such a parent is final by its tag only. -/
theorem tagsFinal_keeps {child parent : Node} (h : Keeps options child)
    (hmem : child ∈ parent.children) : tagsFinal options parent =
      (parent.type = .element && parent.name ∈ options.ultimateTags : Bool) := by
  obtain ⟨info, children⟩ := parent
  have hall : allFinal options children = false := allFinal_keeps h hmem
  rw [tagsFinal, hall, Bool.and_false, Bool.or_false]
  rfl

theorem Frame.mem_fill (f : Frame) (a : Node) : a ∈ (f.fill a).children :=
  List.mem_append_right f.before List.mem_cons_self

theorem Frame.Edited.keeps {f g : Frame} (h : f.Edited g) {a : Node}
    (hfinal : tagsFinal options (f.fill a) = false) : Keeps options (f.fill a) := by
  rcases h.type with htype | htype
  · exact ⟨by rw [isBlankNode, isText, show (f.fill a).type = .element from htype]; rfl,
      by rw [show (f.fill a).type = .element from htype]; decide, hfinal⟩
  · exact ⟨by rw [isBlankNode, isText, show (f.fill a).type = .document from htype]; rfl,
      by rw [show (f.fill a).type = .document from htype]; decide, hfinal⟩

/-- By the tags, above a node that is not final, the parents are asked for their names. -/
theorem climb_tags (hautomatic : options.automatic = false) {frames gs : List Frame}
    (h : List.Forall₂ Frame.Edited frames gs) : ∀ {a b : Node}, Swapped a b →
    Keeps options a → Keeps options b →
    climb options false (above frames a) = climb options false (above gs b) := by
  induction h with
  | nil =>
    intro a b _ _ _
    rfl
  | @cons f g frames gs hframe _ ih =>
    intro a b hab ha hb
    have hedited := hframe.fill hab
    have hno : ¬options.automatic = true := by
      rw [hautomatic]
      exact Bool.false_ne_true
    have hname : (f.fill a).name = (g.fill b).name := congrArg Info.name hedited.info
    have htype : (f.fill a).type = (g.fill b).type := congrArg Info.type hedited.info
    have hfinal : tagsFinal options (f.fill a) = tagsFinal options (g.fill b) := by
      rw [tagsFinal_keeps ha (f.mem_fill a), tagsFinal_keeps hb (g.mem_fill b), hname, htype]
    rw [above, above, climb_false_cons, climb_false_cons, isFinalNode, isFinalNode, if_neg hno,
      if_neg hno, hfinal, hedited.auto]
    cases hg : tagsFinal options (g.fill b) with
    | true => rfl
    | false =>
      have hgf : g.Edited g := ⟨rfl, hframe.info ▸ hframe.type, swapped_refl _, rfl⟩
      exact ih (hframe.swapped a b) (hframe.keeps (hfinal.trans hg)) (hgf.keeps hg)

/-- The texts of the node have no children. -/
def TextLeaves (node : Node) : Prop := ∀ c ∈ node.children, c.type = .text → c.children = []

theorem exists_text {node : Node} (helement : node.type = .element)
    (h : autoNodeIsFinal options node = true) :
    ∃ c ∈ node.children, c.type = .text ∧ strip c.content ≠ [] := by
  rw [autoNodeIsFinal, isText, helement] at h
  split_ifs at h with hignored htext
  · cases htext
  · obtain ⟨c, hc, htest⟩ := List.any_eq_true.mp h
    exact ⟨c, hc, by simpa using htest⟩

/-- White space for `libxml2` is white space for Python. -/
theorem isBlankNode_of_strip {node : Node} (h : strip node.content ≠ []) :
    isBlankNode node = false := by
  rw [isBlankNode, Bool.and_eq_false_iff]
  right
  rw [List.all_eq_false]
  by_contra hno
  apply h
  rw [Po.Merge.strip_eq_nil_iff]
  intro c hc
  by_contra hspace
  apply hno
  refine ⟨c, hc, ?_⟩
  intro hblank
  apply hspace
  have hfour : c ∈ [' ', '\t', '\n', '\r'] := of_decide_eq_true hblank
  rw [Po.isSpace, decide_eq_true_eq]
  revert hfour
  simp only [List.mem_cons, List.not_mem_nil, or_false]
  tauto

/-- Its own text keeps an element from being final by its children. -/
theorem tagsFinal_text {node c : Node} (hc : c ∈ node.children) (htype : c.type = .text)
    (hstrip : strip c.content ≠ []) (hleaf : c.children = []) : tagsFinal options node =
      (node.type = .element && node.name ∈ options.ultimateTags : Bool) := by
  refine tagsFinal_keeps ⟨isBlankNode_of_strip hstrip, by rw [htype]; decide, ?_⟩ hc
  obtain ⟨info, children⟩ := c
  have hinfo : info.type = .text := htype
  have hnil : children = [] := hleaf
  rw [tagsFinal, hinfo, hnil]
  rfl

/-- The child of an edited node that is a text. -/
theorem Edited.text {a b c : Node} (h : Edited a b) (hc : c ∈ a.children)
    (htype : c.type = .text) : c ∈ b.children := by
  have hmem : ∀ {as bs : List Node}, List.Forall₂ Swapped as bs → c ∈ as → c ∈ bs := by
    intro as bs hs
    induction hs with
    | nil => exact id
    | cons hswap _ ih =>
      intro hin
      rcases List.mem_cons.mp hin with rfl | hin
      · rcases hswap with rfl | ⟨hno, _⟩
        · exact List.mem_cons_self
        · exact absurd htype hno
      · exact List.mem_cons_of_mem _ (ih hin)
  exact hmem h.children hc

/-- An element that is edited below edited ancestors is worth outputting if it was. -/
theorem worthOutputting_edited {frames gs : List Frame}
    (h : List.Forall₂ Frame.Edited frames gs) {a b : Node} (hab : Edited a b)
    (helement : a.type = .element) (hleaves : TextLeaves b) :
    worthOutputting options (above frames a) a = worthOutputting options (above gs b) b := by
  have hb : b.type = .element := (congrArg Info.type hab.info).symm.trans helement
  have hswapped : Swapped a b := Or.inr ⟨by rw [helement]; decide, by rw [hb]; decide⟩
  rw [Bool.eq_iff_iff, worthOutputting_iff, worthOutputting_iff, hab.auto]
  apply and_congr_right
  intro hauto
  cases hautomatic : options.automatic with
  | true =>
    have habove := above_edited h hswapped
    rw [isFinalNode_edited hautomatic habove hab, climb_automatic hautomatic habove]
  | false =>
    have hno : ¬options.automatic = true := by
      rw [hautomatic]
      exact Bool.false_ne_true
    obtain ⟨c, hc, htype, hstrip⟩ := exists_text helement (hab.auto.trans hauto)
    have hcb := hab.text hc htype
    have hleaf := hleaves c hcb htype
    have hname : a.name = b.name := congrArg Info.name hab.info
    have hfinal : tagsFinal options a = tagsFinal options b := by
      rw [tagsFinal_text hc htype hstrip hleaf, tagsFinal_text hcb htype hstrip hleaf, hname,
        helement, hb]
    rw [isFinalNode, isFinalNode, if_neg hno, if_neg hno, hfinal]
    cases htags : tagsFinal options b with
    | true => simp
    | false =>
      have hkeeps : ∀ {n : Node}, n.type = .element → tagsFinal options n = false →
          Keeps options n := by
        intro n hn hnot
        exact ⟨by rw [isBlankNode, isText, hn]; rfl, by rw [hn]; decide, hnot⟩
      rw [climb_tags hautomatic h hswapped (hkeeps helement (hfinal.trans htags))
        (hkeeps hb htags)]

theorem isFinalNode_above {frames gs : List Frame} (h : List.Forall₂ Frame.Edited frames gs)
    (node : Node) :
    isFinalNode options (above frames node) node = isFinalNode options (above gs node) node := by
  cases hautomatic : options.automatic with
  | true =>
    exact isFinalNode_edited hautomatic (above_edited h (Swapped.refl node)) (Edited.refl node)
  | false =>
    have hno : ¬options.automatic = true := by
      rw [hautomatic]
      exact Bool.false_ne_true
    rw [isFinalNode, isFinalNode, if_neg hno, if_neg hno]

theorem ignoreNode_above {frames gs : List Frame} (h : List.Forall₂ Frame.Edited frames gs)
    (node : Node) :
    ignoreNode options (above frames node) node = ignoreNode options (above gs node) node := by
  rw [ignoreNode, ignoreNode, isFinalNode_above h]

/-- Whether a child gets a placeholder. -/
theorem breaks_above {frames gs : List Frame} (h : List.Forall₂ Frame.Edited frames gs)
    {node : Node} (hleaves : node.type = .element → TextLeaves node) :
    breaks options (above frames node) node = breaks options (above gs node) node := by
  rw [breaks, breaks, isFinalNode_above h]
  congr 1
  by_cases helement : node.type = .element
  · rw [worthOutputting_edited h (Edited.refl node) helement (hleaves helement)]
  · simp [helement]

/-- A node that is replaced has children. -/
theorem children_of_worthOutputting {ancestors : List Node} {node : Node}
    (helement : node.type = .element) (h : worthOutputting options ancestors node = true) :
    node.children ≠ [] := by
  obtain ⟨c, hc, _⟩ := exists_text helement ((worthOutputting_iff node).mp h).1
  exact List.ne_nil_of_mem hc

end Stable

end Xml2po
end I18nZh
