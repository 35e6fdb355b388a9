import Mathlib.Algebra.Group.Nat.Defs
import TreeEnsemble.Proofs.Tree.Validation
import TreeEnsemble.Tree.Draft

/-!
The links of a draft. New links lead to new nodes only, so no node ever has two parents and a node
that lost its parent never gets another one. A draft is linked, every node but the root having a
parent, as long as no split is made again or turned into a leaf.
-/

namespace TreeEnsemble

def Side.offset : Side → Nat
  | .left => 0
  | .right => 1

theorem Side.offset_le (side : Side) : side.offset ≤ 1 := by
  cases side <;> decide

namespace Draft

/-- The node that an edit names. -/
def Edit.node? : Edit → Option Nat
  | .root => none
  | .split node _ | .missingAsZero node _ | .leaf node _ => some node

/-- The node whose links an edit makes anew. -/
def Edit.remade? : Edit → Option Nat
  | .split node _ | .leaf node _ => some node
  | .root | .missingAsZero _ _ => none

/-- What an edit makes of the node that it names, in a draft of some size. -/
def Edit.onto (size : Nat) (n : DraftNode) : Edit → DraftNode
  | .root => n
  | .split _ q =>
    { n with
      feature := q.feature
      threshold := q.threshold
      comparison := q.comparison
      defaultLeft := q.defaultLeft
      left := size
      right := size + 1
      leaf := false }
  | .missingAsZero _ flag => { n with missingAsZero := flag }
  | .leaf _ value => .ofValue value

/-- How many nodes an edit adds. -/
def Edit.growth : Edit → Nat
  | .split _ _ => 2
  | _ => 0

theorem split_of_growth {e : Edit} {node : Nat} (he : e.node? = some node) (h : 0 < e.growth) :
    ∃ q, e = .split node q := by
  cases e with
  | split _ q =>
    cases he
    exact ⟨q, rfl⟩
  | _ => exact absurd h (Nat.lt_irrefl 0)

/-- An edit names a node of the draft. -/
def Fits (d : Draft) (e : Edit) : Prop := ∀ node ∈ e.node?, node < d.size

instance (d : Draft) (e : Edit) : Decidable (d.Fits e) :=
  inferInstanceAs (Decidable (∀ node ∈ e.node?, node < d.size))

/-- A node of a draft, or what it will be when it comes. -/
def nodeAt (d : Draft) (i : Nat) : DraftNode := d.nodes[i]?.getD (.ofValue .zero)

def Splits (d : Draft) (i : Nat) : Prop := (d.nodeAt i).leaf = false

instance (d : Draft) (i : Nat) : Decidable (d.Splits i) :=
  inferInstanceAs (Decidable ((d.nodeAt i).leaf = false))

/-- An edit does not overwrite a split. -/
def Spares (d : Draft) (e : Edit) : Prop := ∀ node ∈ e.remade?, ¬d.Splits node

instance (d : Draft) (e : Edit) : Decidable (d.Spares e) :=
  inferInstanceAs (Decidable (∀ node ∈ e.remade?, ¬d.Splits node))

/-- Every edit of a run finds the draft as it should be for it. -/
def Along (P : Draft → Edit → Prop) (d : Draft) (edits : List Edit) : Prop :=
  ∀ pre e post h, edits = pre ++ e :: post → d.run pre = .ok h → P h e

theorem run_cons (d : Draft) (e : Edit) (edits : List Edit) :
    d.run (e :: edits) = d.apply e >>= fun h => h.run edits := List.foldlM_cons

theorem run_append (d : Draft) (edits more : List Edit) :
    d.run (edits ++ more) = d.run edits >>= fun h => h.run more := List.foldlM_append

theorem along_nil {P : Draft → Edit → Prop} {d : Draft} : d.Along P [] := by
  intro pre e post h hsplit
  cases pre <;> nomatch hsplit

theorem along_cons {P : Draft → Edit → Prop} {d : Draft} {e : Edit} {edits : List Edit} :
    d.Along P (e :: edits) ↔ P d e ∧ ∀ h, d.apply e = .ok h → h.Along P edits := by
  constructor
  · intro hall
    refine ⟨hall [] e edits d rfl rfl, fun d' happly pre e' post h hsplit hrun => ?_⟩
    apply hall (e :: pre) e' post h (by rw [hsplit]; rfl)
    rw [run_cons, happly]
    exact hrun
  · rintro ⟨hfirst, hrest⟩ pre e' post h hsplit hrun
    cases pre with
    | nil =>
      cases hsplit
      cases hrun
      exact hfirst
    | cons _ pre =>
      obtain ⟨hhead, htail⟩ := List.cons.inj hsplit
      rw [← hhead, run_cons] at hrun
      obtain ⟨d', happly, hrun⟩ := bind_eq_ok_iff.mp hrun
      exact hrest d' happly pre e' post h htail hrun

instance decidableAlong {P : Draft → Edit → Prop} [∀ d e, Decidable (P d e)] :
    ∀ (d : Draft) (edits : List Edit), Decidable (d.Along P edits)
  | _, [] => .isTrue along_nil
  | d, e :: edits =>
    match happly : d.apply e with
    | .error _ =>
      decidable_of_iff (P d e)
        ⟨fun h => along_cons.mpr ⟨h, fun _ hok => nomatch happly.symm.trans hok⟩,
          fun h => (along_cons.mp h).1⟩
    | .ok next =>
      have := decidableAlong (P := P) next edits
      decidable_of_iff (P d e ∧ next.Along P edits)
        ⟨fun h => along_cons.mpr ⟨h.1, fun _ hok => Except.ok.inj (happly.symm.trans hok) ▸ h.2⟩,
          fun h => ⟨(along_cons.mp h).1, (along_cons.mp h).2 next happly⟩⟩

theorem Along.of_append {P : Draft → Edit → Prop} {d h : Draft} {edits more : List Edit}
    (hall : d.Along P (edits ++ more)) (hrun : d.run edits = .ok h) : h.Along P more := by
  intro pre e post h' hsplit hpre
  apply hall (edits ++ pre) e post h' (by rw [hsplit, List.append_assoc])
  rw [run_append, hrun]
  exact hpre

/-- One edit at a node, and all that it does. The node may be one that the edit adds. -/
structure Change (d d' : Draft) (e : Edit) (node : Nat) : Prop where
  applied : d.apply e = .ok d'
  named : e.node? = some node
  new : d'.nodeAt node = e.onto d.size (d.nodeAt node)
  others : ∀ i, i ≠ node → d'.nodeAt i = d.nodeAt i
  size : d'.size = d.size + e.growth
  room : 0 < e.growth → UInt32.ofNat d.size ≠ 0xffffffff

/-- One edit at a node that the draft has. -/
structure Step (d d' : Draft) (e : Edit) (node : Nat) : Prop extends d.Change d' e node where
  inside : node < d.size

theorem modify_ok_iff {d d' : Draft} {node : Nat} {f : DraftNode → DraftNode} :
    d.modify node f = .ok d' ↔
      ∃ n, d.nodes[node]? = some n ∧ d' = ⟨d.nodes.setIfInBounds node (f n)⟩ := by
  unfold modify
  rw [bind_eq_ok_iff]
  constructor
  · rintro ⟨n, hn, h⟩
    obtain ⟨nodes, hnodes, h⟩ := bind_eq_ok_iff.mp h
    cases h
    exact ⟨n, fetch_eq_ok_iff.mp hn, by rw [(store_eq_ok_iff.mp hnodes).2]⟩
  · rintro ⟨n, hn, rfl⟩
    have hin := (Array.getElem?_eq_some_iff.mp hn).1
    refine ⟨n, fetch_eq_ok_iff.mpr hn, ?_⟩
    simp only [store_of_lt hin, ok_bind, pure_eq_ok]

/-- The edits that add no node. -/
theorem change_modify {d d' : Draft} {e : Edit} {node : Nat} (named : e.node? = some node)
    (hgrowth : e.growth = 0) (hmodify : d.apply e = d.modify node (e.onto d.size))
    (h : d.apply e = .ok d') : d.Change d' e node := by
  obtain ⟨n, hn, rfl⟩ := modify_ok_iff.mp (hmodify.symm.trans h)
  have hin := (Array.getElem?_eq_some_iff.mp hn).1
  have hold : d.nodeAt node = n := by rw [nodeAt, hn, Option.getD_some]
  exact {
    applied := h
    named := named
    new := by rw [hold, nodeAt, Array.getElem?_setIfInBounds_self, if_pos hin, Option.getD_some]
    others := fun i hne => by simp [nodeAt, Array.getElem?_setIfInBounds_ne (Ne.symm hne)]
    size := by simp [size, hgrowth]
    room := fun hpos => by omega }

theorem change_split {d d' : Draft} {node : Nat} {q : Question}
    (h : d.apply (.split node q) = .ok d') :
    d.Change d' (.split node q) node ∧ node < d.size + 2 := by
  have hsplit : d.split node q = .ok d' := h
  unfold split at hsplit
  split at hsplit
  next => nomatch hsplit
  next hroom =>
    obtain ⟨n, hn, rfl⟩ := modify_ok_iff.mp hsplit
    have hgrown : ∀ i,
        ((d.nodes.push (.ofValue .zero)).push (.ofValue .zero))[i]?.getD (.ofValue .zero) =
          d.nodeAt i := by
      intro i
      rw [Array.getElem?_push, Array.getElem?_push, nodeAt]
      split
      next hlast =>
        rw [Array.size_push] at hlast
        rw [Array.getElem?_eq_none (by omega)]
        rfl
      next =>
        split
        next hlast =>
          rw [Array.getElem?_eq_none (by omega)]
          rfl
        next => rfl
    have hold : d.nodeAt node = n := by rw [← hgrown, hn, Option.getD_some]
    have hin := (Array.getElem?_eq_some_iff.mp hn).1
    refine ⟨{
      applied := h
      named := rfl
      new := by
        rw [hold, nodeAt, Array.getElem?_setIfInBounds_self, if_pos hin]
        rfl
      others := fun i hne => by
        rw [nodeAt, Array.getElem?_setIfInBounds_ne (Ne.symm hne)]
        exact hgrown i
      size := by simp [size, Edit.growth]
      room := fun _ => hroom }, ?_⟩
    rw [Array.size_push, Array.size_push] at hin
    exact hin

theorem change_of_apply {d d' : Draft} {e : Edit} (hroot : e ≠ .root) (h : d.apply e = .ok d') :
    ∃ node, d.Change d' e node := by
  cases e with
  | root => exact absurd rfl hroot
  | split node q => exact ⟨node, (change_split h).1⟩
  | missingAsZero node flag => exact ⟨node, change_modify rfl rfl rfl h⟩
  | leaf node value => exact ⟨node, change_modify rfl rfl rfl h⟩

theorem step_of_apply {d d' : Draft} {e : Edit} (hroot : e ≠ .root) (hfits : d.Fits e)
    (h : d.apply e = .ok d') : ∃ node, d.Step d' e node := by
  obtain ⟨node, change⟩ := change_of_apply hroot h
  exact ⟨node, change, hfits node change.named⟩

theorem Step.along_iff {P : Draft → Edit → Prop} {d d' : Draft} {e : Edit} {edits : List Edit}
    {node : Nat} (s : d.Step d' e node) :
    d.Along P (e :: edits) ↔ P d e ∧ d'.Along P edits := by
  rw [along_cons, s.applied]
  exact ⟨fun h => ⟨h.1, h.2 d' rfl⟩, fun h => ⟨h.1, fun _ hok => Except.ok.inj hok ▸ h.2⟩⟩

/-- Edits one after another, none of which starts over. -/
inductive Steps : Draft → List Edit → Draft → Prop
  | nil {d : Draft} : Steps d [] d
  | cons {d h d' : Draft} {e : Edit} {edits : List Edit} {node : Nat} (first : d.Step h e node)
      (rest : Steps h edits d') : Steps d (e :: edits) d'

theorem steps_of_run {d d' : Draft} {edits : List Edit} (hroot : .root ∉ edits)
    (hfits : d.Along Fits edits) (hrun : d.run edits = .ok d') : d.Steps edits d' := by
  induction edits generalizing d with
  | nil =>
    cases hrun
    exact .nil
  | cons e edits ih =>
    have hne := List.ne_of_not_mem_cons hroot
    have hroot := List.not_mem_of_not_mem_cons hroot
    obtain ⟨hfit, hfits⟩ := along_cons.mp hfits
    rw [run_cons] at hrun
    obtain ⟨h, happly, hrun⟩ := bind_eq_ok_iff.mp hrun
    obtain ⟨node, first⟩ := step_of_apply (Ne.symm hne) hfit happly
    exact .cons first (ih hroot (hfits h happly) hrun)

/-- An edit goes through as long as the draft has the node and node numbers last. -/
theorem apply_ok_of_room {d : Draft} {e : Edit} (hfits : d.Fits e)
    (hroom : 0 < e.growth → d.size + 1 < 2 ^ 32) : ∃ d', d.apply e = .ok d' := by
  have hmodify : ∀ {h : Draft} {node f}, node < h.size → ∃ d', h.modify node f = .ok d' := by
    intro h node f hn
    exact ⟨_, modify_ok_iff.mpr ⟨_, Array.getElem?_eq_getElem hn, rfl⟩⟩
  cases e with
  | root => exact ⟨.root, rfl⟩
  | split node q =>
    have hnode : node < d.size := hfits node rfl
    have hsize : d.size + 1 < 2 ^ 32 := hroom Nat.two_pos
    have hroom : UInt32.ofNat d.size ≠ 0xffffffff := by
      intro heq
      have := congrArg UInt32.toNat heq
      simp only [UInt32.toNat_ofNat'] at this
      have hlast : (0xffffffff : UInt32).toNat = 4294967295 := rfl
      omega
    simp only [apply, split, if_neg hroom]
    apply hmodify
    simp only [size, Array.size_push] at hnode ⊢
    omega
  | missingAsZero node flag => exact hmodify (hfits node rfl)
  | leaf node value => exact hmodify (hfits node rfl)

theorem apply_ok_of_fits {d : Draft} {e : Edit} (hfits : d.Fits e) (hsize : d.size + 1 < 2 ^ 32) :
    ∃ d', d.apply e = .ok d' := apply_ok_of_room hfits fun _ => hsize

end Draft

def DraftNode.link (n : DraftNode) : Side → Nat
  | .left => n.left
  | .right => n.right

namespace Draft

/-- The child of a split on a side; a leaf has none. -/
def child? (d : Draft) (i : Nat) (side : Side) : Option Nat :=
  if (d.nodeAt i).leaf then none else some ((d.nodeAt i).link side)

theorem child?_of_splits {d : Draft} {i : Nat} (h : d.Splits i) (side : Side) :
    d.child? i side = some ((d.nodeAt i).link side) := by
  rw [child?, h, if_neg nofun]

theorem splits_of_child? {d : Draft} {i child : Nat} {side : Side}
    (h : d.child? i side = some child) : d.Splits i := by
  unfold child? at h
  split at h
  next => nomatch h
  next hl => exact Bool.eq_false_iff.mpr hl

/-- The links after an edit: the old ones, unless the edit makes the node anew, and from a new split
one to each new node. -/
theorem Change.child?_eq_some_iff {d d' : Draft} {e : Edit} {node : Nat}
    (s : d.Change d' e node) {i child : Nat} {side : Side} :
    d'.child? i side = some child ↔ (e.remade? ≠ some i ∧ d.child? i side = some child) ∨
      ∃ q, e = .split i q ∧ child = d.size + side.offset := by
  have named := s.named
  by_cases hi : i = node
  · subst hi
    have hnew := s.new
    cases e with
    | root => nomatch named
    | split v q =>
      cases named
      have hlink : d'.child? i side = some (d.size + side.offset) := by
        cases side <;> simp [Draft.child?, hnew, Edit.onto, DraftNode.link, Side.offset]
      rw [hlink]
      constructor
      · intro h
        exact Or.inr ⟨q, rfl, (Option.some.inj h).symm⟩
      · rintro (⟨hnot, _⟩ | ⟨_, _, rfl⟩)
        · exact absurd rfl hnot
        · rfl
    | missingAsZero v flag =>
      have hsame : d'.child? i side = d.child? i side := by
        cases side <;> simp [Draft.child?, hnew, Edit.onto, DraftNode.link]
      rw [hsame]
      exact ⟨fun h => Or.inl ⟨nofun, h⟩, fun h => (h.resolve_right nofun).2⟩
    | leaf v value =>
      cases named
      simp [Draft.child?, hnew, Edit.onto, Edit.remade?, DraftNode.ofValue]
  · have hsame : d'.child? i side = d.child? i side := by
      simp only [Draft.child?, s.others i hi]
    have hother : e.remade? ≠ some i := by
      intro h
      cases e <;> simp_all [Edit.remade?, Edit.node?]
    have hsplit : ¬∃ q, e = .split i q ∧ child = d.size + side.offset := by
      rintro ⟨q, rfl, _⟩
      exact hother rfl
    rw [hsame]
    exact ⟨fun h => Or.inl ⟨hother, h⟩, fun h => (h.resolve_right hsplit).2⟩

/-- Links lead to nodes of the draft other than the root, no two of them to the same one, and every
node has a number of 32 bits. -/
structure Anchored (d : Draft) : Prop where
  odd : d.size % 2 = 1
  small : d.size < 2 ^ 32
  inside : ∀ i side child, d.child? i side = some child → 0 < child ∧ child < d.size
  unique : ∀ i j side side' child, d.child? i side = some child →
    d.child? j side' = some child → i = j ∧ side = side'

/-- Links lead to later nodes. -/
def Forward (d : Draft) : Prop := ∀ i side child, d.child? i side = some child → i < child

/-- A draft as edits of its own nodes leave it. -/
structure Grown (d : Draft) : Prop extends d.Anchored where
  forward : d.Forward

theorem Grown.above {d : Draft} (g : d.Grown) (i : Nat) (side : Side) (child : Nat)
    (h : d.child? i side = some child) : i < child ∧ child < d.size :=
  ⟨g.forward i side child h, (g.inside i side child h).2⟩

theorem no_child?_root (i : Nat) (side : Side) : root.child? i side = none := by
  cases i with
  | zero => rfl
  | succ i => simp [child?, nodeAt, root, DraftNode.ofValue]

theorem grown_root : root.Grown where
  odd := rfl
  small := by decide
  inside := fun i side child h => by
    rw [no_child?_root] at h
    nomatch h
  unique := fun i j side side' child h _ => by
    rw [no_child?_root] at h
    nomatch h
  forward := fun i side child h => by
    rw [no_child?_root] at h
    nomatch h

theorem Change.anchored {d d' : Draft} {e : Edit} {node : Nat} (a : d.Anchored)
    (s : d.Change d' e node) : d'.Anchored := by
  have hsize := s.size
  have hodd := a.odd
  have hsmall := a.small
  have hgrowth : e.growth = 0 ∨ e.growth = 2 := by
    cases e <;> simp [Edit.growth]
  exact {
    odd := by omega
    small := by
      rcases hgrowth with h | h
      · omega
      · have hroom := s.room (by omega)
        have hne : d.size ≠ 4294967295 := fun heq => hroom (by rw [heq]; rfl)
        omega
    inside := fun i side child h => by
      rcases s.child?_eq_some_iff.mp h with ⟨_, hold⟩ | ⟨q, rfl, rfl⟩
      · have := a.inside i side child hold
        omega
      · have hoffset := side.offset_le
        simp only [Edit.growth] at hsize
        omega
    unique := fun i j side side' child h h' => by
      rcases s.child?_eq_some_iff.mp h with ⟨_, hold⟩ | ⟨q, rfl, hchild⟩
      · rcases s.child?_eq_some_iff.mp h' with ⟨_, hold'⟩ | ⟨q, _, hchild'⟩
        · exact a.unique i j side side' child hold hold'
        · have := a.inside i side child hold
          omega
      · rcases s.child?_eq_some_iff.mp h' with ⟨_, hold'⟩ | ⟨q', he, hchild'⟩
        · have := a.inside j side' child hold'
          omega
        · cases he
          refine ⟨rfl, ?_⟩
          cases side <;> cases side' <;> simp_all [Side.offset] }

theorem Step.forward {d d' : Draft} {e : Edit} {node : Nat} (f : d.Forward)
    (s : d.Step d' e node) : d'.Forward := by
  intro i side child h
  rcases s.child?_eq_some_iff.mp h with ⟨_, hold⟩ | ⟨q, rfl, rfl⟩
  · exact f i side child hold
  · cases s.named
    have hnode := s.inside
    omega

theorem Grown.step {d d' : Draft} {e : Edit} {node : Nat} (g : d.Grown)
    (s : d.Step d' e node) : d'.Grown :=
  ⟨s.anchored g.toAnchored, s.forward g.forward⟩

/-- Every node but the root is a child. -/
def Linked (d : Draft) : Prop :=
  ∀ child, 0 < child → child < d.size → ∃ i side, d.child? i side = some child

theorem linked_root : root.Linked := by
  intro child hpos hlt
  have : root.size = 1 := rfl
  omega

/-- Old nodes get no new parents, so an edit keeps a draft linked exactly if it spares the splits. -/
theorem Step.linked_iff {d d' : Draft} {e : Edit} {node : Nat} (g : d.Grown)
    (s : d.Step d' e node) : d'.Linked ↔ d.Linked ∧ d.Spares e := by
  have hsize := s.size
  constructor
  · intro hlinked
    refine ⟨fun child hpos hlt => ?_, fun i hi hsplits => ?_⟩
    · obtain ⟨i, side, h⟩ := hlinked child hpos (by omega)
      rcases s.child?_eq_some_iff.mp h with ⟨_, hold⟩ | ⟨_, _, hchild⟩
      · exact ⟨i, side, hold⟩
      · omega
    · -- the left child of the overwritten split has lost its only parent
      obtain ⟨child, hchild⟩ : ∃ child, d.child? i .left = some child :=
        ⟨_, child?_of_splits hsplits .left⟩
      obtain ⟨habove, hlt⟩ := g.above i .left child hchild
      obtain ⟨j, side, h⟩ := hlinked child (by omega) (by omega)
      rcases s.child?_eq_some_iff.mp h with ⟨hnot, hold⟩ | ⟨_, _, hnew⟩
      · obtain ⟨rfl, _⟩ := g.unique i j .left side child hchild hold
        exact hnot hi
      · omega
  · rintro ⟨hlinked, hspares⟩ child hpos hlt
    rcases Nat.lt_or_ge child d.size with hold | hnew
    · obtain ⟨i, side, h⟩ := hlinked child hpos hold
      have hnot : e.remade? ≠ some i := fun hi => hspares i hi (splits_of_child? h)
      exact ⟨i, side, s.child?_eq_some_iff.mpr (Or.inl ⟨hnot, h⟩)⟩
    · obtain ⟨q, rfl⟩ := split_of_growth s.named (by omega)
      simp only [Edit.growth] at hsize
      rcases (by omega : child = d.size ∨ child = d.size + 1) with heq | heq
      · exact ⟨node, .left, s.child?_eq_some_iff.mpr (Or.inr ⟨q, rfl, heq⟩)⟩
      · exact ⟨node, .right, s.child?_eq_some_iff.mpr (Or.inr ⟨q, rfl, heq⟩)⟩

theorem Steps.grown {d d' : Draft} {edits : List Edit} (g : d.Grown) (run : d.Steps edits d') :
    d'.Grown := by
  induction run with
  | nil => exact g
  | cons first _ ih => exact ih (g.step first)

theorem Steps.linked_iff {d d' : Draft} {edits : List Edit} (g : d.Grown)
    (run : d.Steps edits d') : d'.Linked ↔ d.Linked ∧ d.Along Spares edits := by
  induction run with
  | nil => exact ⟨fun h => ⟨h, along_nil⟩, fun h => h.1⟩
  | cons first _ ih =>
    rw [ih (g.step first), first.linked_iff g, first.along_iff, and_assoc]

end Draft

end TreeEnsemble
