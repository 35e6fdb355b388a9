import TreeEnsemble.Proofs.Tree.Validation
import TreeEnsemble.Proofs.Tree.Walk

/-!
The walk of an instance as a relation, with no bound on its length. The computed route is the walk
for any bound above its length. In a well-formed tree the walk from every node ends, at a leaf below
that node; it meets no node twice, and from each node on the way the rest is the walk from there.
-/

namespace TreeEnsemble

/-- The nodes that a route visits, in order. -/
def Route.nodes (r : Route) : List Nat := r.splits ++ [r.leaf]

namespace Tree

/-- The walk from a node. It ends at a leaf, and goes on at a split with the child that the instance
takes. -/
inductive Descent (t : Tree) (scale : Scale) (slots : Array Slot) : Nat → Route → Prop
  | stop {node : Nat} (hleaf : t.isLeaf node = .ok true) : Descent t scale slots node ⟨[], node⟩
  | next {node child : Nat} {route : Route} (hsplit : t.isLeaf node = .ok false)
      (hchild : t.childFor scale slots node = .ok child)
      (hrest : Descent t scale slots child route) :
      Descent t scale slots node { route with splits := node :: route.splits }

variable {t : Tree} {scale : Scale} {slots : Array Slot}

theorem descent_of_routeWithin {fuel node : Nat} {route : Route}
    (h : t.routeWithin scale slots fuel node = .ok route) : t.Descent scale slots node route := by
  induction fuel generalizing node route with
  | zero => nomatch h
  | succ fuel ih =>
    obtain ⟨leaf, hleaf, h⟩ := bind_eq_ok_iff.mp h
    cases leaf with
    | true =>
      cases h
      exact .stop hleaf
    | false =>
      obtain ⟨child, hchild, h⟩ := bind_eq_ok_iff.mp h
      obtain ⟨rest, hrest, h⟩ := bind_eq_ok_iff.mp h
      cases h
      exact .next hleaf hchild (ih hrest)

/-- A walk is computed as soon as its splits fit the bound. -/
theorem routeWithin_of_descent {node : Nat} {route : Route}
    (h : t.Descent scale slots node route) :
    ∀ fuel, route.splits.length < fuel → t.routeWithin scale slots fuel node = .ok route := by
  induction h with
  | stop hleaf =>
    intro fuel hfuel
    cases fuel with
    | zero => simp at hfuel
    | succ fuel => simp only [routeWithin, hleaf, ok_bind, if_true, pure_eq_ok]
  | next hsplit hchild _ ih =>
    intro fuel hfuel
    cases fuel with
    | zero => simp at hfuel
    | succ fuel =>
      have hrest := ih fuel (by simpa using hfuel)
      simp only [routeWithin, hsplit, ok_bind, Bool.false_eq_true, if_false, hchild, hrest,
        pure_eq_ok]

theorem Descent.unique {node : Nat} {route route' : Route} (h : t.Descent scale slots node route)
    (h' : t.Descent scale slots node route') : route = route' := by
  have hone := routeWithin_of_descent h (route.splits.length + route'.splits.length + 1) (by omega)
  have hother :=
    routeWithin_of_descent h' (route.splits.length + route'.splits.length + 1) (by omega)
  exact Except.ok.inj (hone.symm.trans hother)

theorem Descent.leaf_true {node : Nat} {route : Route} (h : t.Descent scale slots node route) :
    t.leaf[route.leaf]? = some true := by
  induction h with
  | stop hleaf => exact fetch_eq_ok_iff.mp hleaf
  | next _ _ _ ih => exact ih

/-- The child taken at a split of a well-formed tree is its child on one of the sides. -/
theorem child?_of_childFor (h : t.WellFormed) (hs : t.Readable scale) {node child : Nat}
    (hsplit : t.isLeaf node = .ok false) (hchild : t.childFor scale slots node = .ok child) :
    ∃ side, t.child? node side = some child := by
  have hl := fetch_eq_ok_iff.mp hsplit
  have hn : node < t.size := h.lt_of_leaf hl
  rcases leaf_or_split h.columns hn with hleaf | ⟨_, hsides⟩
  · cases hl.symm.trans hleaf
  · obtain ⟨side, child', hchild', hside⟩ := childFor_ok h hs slots hn hsides
    cases Except.ok.inj (hchild.symm.trans hchild')
    exact ⟨side, hside⟩

/-- What a walk visits lies below its start. -/
theorem Descent.reaches (h : t.WellFormed) (hs : t.Readable scale) {node : Nat} {route : Route}
    (hwalk : t.Descent scale slots node route) :
    ∀ v ∈ route.nodes, ∃ path, t.follow node path = some v := by
  induction hwalk with
  | stop _ =>
    intro v hv
    have hv : v = _ := List.mem_singleton.mp hv
    exact ⟨[], congrArg some hv.symm⟩
  | next hsplit hchild _ ih =>
    intro v hv
    rcases List.mem_cons.mp hv with rfl | hv
    · exact ⟨[], rfl⟩
    · obtain ⟨side, hside⟩ := child?_of_childFor h hs hsplit hchild
      obtain ⟨path, hpath⟩ := ih v hv
      refine ⟨side :: path, ?_⟩
      rw [follow, hside]
      exact hpath

/-- A node met again would be reached by two paths, the second one longer. -/
theorem Descent.nodup (h : t.WellFormed) (hs : t.Readable scale) {node : Nat} {route : Route}
    (hwalk : t.Descent scale slots node route) {path : List Side}
    (hpath : t.follow 0 path = some node) : route.nodes.Nodup := by
  induction hwalk generalizing path with
  | stop _ => exact List.nodup_singleton _
  | @next node child rest hsplit hchild hrest ih =>
    obtain ⟨side, hside⟩ := child?_of_childFor h hs hsplit hchild
    have hext : t.follow 0 (path ++ [side]) = some child := by
      rw [follow_snoc, hpath]
      exact hside
    have hfresh : node ∉ rest.nodes := by
      intro hmem
      obtain ⟨more, hmore⟩ := hrest.reaches h hs node hmem
      have hagain : t.follow 0 (path ++ [side] ++ more) = some node := by
        rw [follow_append, hext]
        exact hmore
      have hlen := congrArg List.length (h.follow_inj hpath hagain)
      simp only [List.length_append, List.length_singleton] at hlen
      omega
    exact List.nodup_cons.mpr ⟨hfresh, ih hext⟩

/-- From each node on the way, the rest of a walk is the walk from there. -/
theorem Descent.suffix {start : Nat} {route : Route} (h : t.Descent scale slots start route)
    {before after : List Nat} {node : Nat} (hnodes : route.nodes = before ++ node :: after) :
    ∃ rest, t.Descent scale slots node rest ∧ rest.nodes = node :: after ∧
      rest.leaf = route.leaf := by
  induction h generalizing before with
  | @stop start hleaf =>
    have hlen := congrArg List.length hnodes
    simp only [Route.nodes, List.nil_append, List.length_append, List.length_cons,
      List.length_nil] at hlen
    have hbefore : before = [] := List.length_eq_zero_iff.mp (by omega)
    have hafter : after = [] := List.length_eq_zero_iff.mp (by omega)
    subst hbefore
    subst hafter
    cases hnodes
    exact ⟨_, .stop hleaf, rfl, rfl⟩
  | @next start child rest hsplit hchild hrest ih =>
    have hnodes : start :: rest.nodes = before ++ node :: after := hnodes
    cases before with
    | nil =>
      obtain ⟨rfl, hafter⟩ := List.cons.inj hnodes
      exact ⟨_, .next hsplit hchild hrest, congrArg (start :: ·) hafter, rfl⟩
    | cons _ before =>
      obtain ⟨_, hlater⟩ := List.cons.inj hnodes
      exact ih hlater

/-- In a well-formed tree every walk is computed, whatever the slots hold. -/
theorem routeFrom_ok (h : t.WellFormed) (hs : t.Readable scale) (slots : Array Slot) {start : Nat}
    (hstart : start < t.size) :
    ∃ route, t.routeFrom scale slots start = .ok route ∧ t.Descent scale slots start route := by
  obtain ⟨path, hpath, _⟩ := h.onePath start hstart
  have hfuel : t.size ≤ path.length + (t.size + 1) := by omega
  obtain ⟨route, hroute, _⟩ := routeWithin_ok h hs slots hpath hfuel
  exact ⟨route, hroute, descent_of_routeWithin hroute⟩

theorem leafFrom_of_routeFrom {start : Nat} {route : Route}
    (h : t.routeFrom scale slots start = .ok route) :
    t.leafFrom scale slots start = .ok route.leaf := by
  simp only [leafFrom, h, ok_bind, pure_eq_ok]

theorem Descent.routeFrom_suffix (h : t.WellFormed) (hs : t.Readable scale) {start : Nat}
    {route : Route} (hwalk : t.Descent scale slots start route) {path : List Side}
    (hpath : t.follow 0 path = some start) {before after : List Nat} {node : Nat}
    (hnodes : route.nodes = before ++ node :: after) :
    ∃ rest, t.routeFrom scale slots node = .ok rest ∧ rest.nodes = node :: after ∧
      rest.leaf = route.leaf := by
  obtain ⟨rest, hrest, hsame, hleaf⟩ := hwalk.suffix hnodes
  have hmem : node ∈ route.nodes := by simp [hnodes]
  obtain ⟨more, hmore⟩ := hwalk.reaches h hs node hmem
  have hn : t.follow 0 (path ++ more) = some node := by
    rw [follow_append, hpath]
    exact hmore
  obtain ⟨rest', hroute, hrest'⟩ := routeFrom_ok h hs slots (h.follow_lt hn)
  cases hrest.unique hrest'
  exact ⟨rest, hroute, hsame, hleaf⟩

/-- A walk through a valid tree ends, from whatever node it starts and whatever the slots hold. It
visits no node twice and ends at a leaf below its start, and from each node on the way it is the
walk from there; so where the walk from the root comes to the start, both end at the same leaf. -/
theorem descent_ends_at_leaf (hvalid : t.validate = .ok ()) (hs : t.Readable scale)
    (slots : Array Slot) {start : Nat} (hstart : start < t.size) :
    ∃ route, t.routeFrom scale slots start = .ok route ∧ t.Descent scale slots start route ∧
      t.leafFrom scale slots start = .ok route.leaf ∧
      route.nodes.Nodup ∧
      t.leaf[route.leaf]? = some true ∧
      (∃ path, t.follow start path = some route.leaf) ∧
      (∀ before node after, route.nodes = before ++ node :: after →
        (∃ rest, t.routeFrom scale slots node = .ok rest ∧ rest.nodes = node :: after) ∧
        t.leafFrom scale slots node = .ok route.leaf) ∧
      ∀ top, t.routeFrom scale slots 0 = .ok top → start ∈ top.nodes →
        t.leafFor scale slots = .ok route.leaf := by
  have h := wellFormed_of_validate hvalid
  obtain ⟨path, hpath, _⟩ := h.onePath start hstart
  obtain ⟨route, hroute, hwalk⟩ := routeFrom_ok h hs slots hstart
  have hlast : route.leaf ∈ route.nodes := by simp [Route.nodes]
  refine ⟨route, hroute, hwalk, leafFrom_of_routeFrom hroute, hwalk.nodup h hs hpath,
    hwalk.leaf_true, hwalk.reaches h hs route.leaf hlast, ?_, ?_⟩
  · intro before node after hnodes
    obtain ⟨rest, hrest, hsame, hleaf⟩ := hwalk.routeFrom_suffix h hs hpath hnodes
    exact ⟨⟨rest, hrest, hsame⟩, hleaf ▸ leafFrom_of_routeFrom hrest⟩
  · intro top htop hmem
    obtain ⟨before, after, hnodes⟩ := List.append_of_mem hmem
    have hroot : t.follow 0 [] = some 0 := rfl
    have hdown := descent_of_routeWithin htop
    obtain ⟨rest, hrest, _, hleaf⟩ := hdown.routeFrom_suffix h hs hroot hnodes
    cases Except.ok.inj (hroute.symm.trans hrest)
    rw [hleaf]
    exact leafFrom_of_routeFrom htop

/-- The staircase with codes at its two splits. -/
def codedStaircase : Tree :=
  { staircase with thresholdBins := #[0, 0, 0, 0, 0], zeroBins := #[-1, 0, 1, 0, 0] }

/-- A slot that was written as a number is read as a bin, and there is no second slot: the walk goes
right at the root, and compares the code of zero at the second split. -/
theorem descent_of_codedStaircase :
    ∃ route, codedStaircase.routeFrom .binned #[.ofFloat ⟨0x3f800000⟩] 0 = .ok route ∧
      route.nodes = [0, 2, 3] ∧ route.nodes.Nodup ∧
      codedStaircase.leafFrom .binned #[.ofFloat ⟨0x3f800000⟩] 2 = .ok 3 := by
  have hvalid : codedStaircase.validate = .ok () := by decide +kernel
  have hbins : codedStaircase.Readable .binned := by
    have hhas : codedStaircase.hasBins = true := by decide
    exact hhas
  have hroute : codedStaircase.routeFrom .binned #[.ofFloat ⟨0x3f800000⟩] 0 =
      .ok ⟨[0, 2], 3⟩ := by decide +kernel
  have hroot : 0 < codedStaircase.size := by decide
  obtain ⟨route, hsame, _, _, hnodup, _, _, hrest, _⟩ :=
    descent_ends_at_leaf hvalid hbins #[.ofFloat ⟨0x3f800000⟩] hroot
  cases Except.ok.inj (hroute.symm.trans hsame)
  exact ⟨⟨[0, 2], 3⟩, hroute, rfl, hnodup, (hrest [0] 2 [3] rfl).2⟩

end Tree

end TreeEnsemble
