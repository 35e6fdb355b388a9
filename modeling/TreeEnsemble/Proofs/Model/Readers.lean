import Mathlib.Algebra.Group.Nat.Defs
import TreeEnsemble.Model.Dump

/-!
Reading back what was written. Each reader gives back each value from its document, unless a number
in it is infinite or NaN; then the reader finds null where a number should be. This goes on from
digits and single values to arrays and to records, whose fields are checked by name.
-/

namespace TreeEnsemble

namespace Binary32

theorem hexDigitValue?_hexDigit {d : Nat} (h : d < 16) : hexDigitValue? (hexDigit d) = some d := by
  have hall : ∀ d < 16, hexDigitValue? (hexDigit d) = some d := by decide
  exact hall d h

theorem readHexDigits_append (n : Nat) (cs ds : List Char) :
    readHexDigits n (cs ++ ds) = readHexDigits n cs >>= fun m => readHexDigits m ds := by
  induction cs generalizing n with
  | nil => rfl
  | cons c cs ih =>
    rw [List.cons_append, readHexDigits, readHexDigits, bind_assoc]
    exact bind_congr fun d => ih (16 * n + d)

/-- Digits that are read shift the number read before them. -/
theorem readHexDigits_hexDigits (m n k : Nat) :
    readHexDigits m (hexDigits n k) = some (16 ^ k * m + n % 16 ^ k) := by
  induction k generalizing n with
  | zero => simp [hexDigits, readHexDigits, Nat.mod_one]
  | succ k ih =>
    have hdigit := hexDigitValue?_hexDigit (Nat.mod_lt n (by decide : 0 < 16))
    have hsplit : n % 16 ^ (k + 1) = n % 16 + 16 * (n / 16 % 16 ^ k) := by
      rw [Nat.pow_succ', Nat.mod_mul]
    rw [hexDigits, readHexDigits_append, ih]
    simp only [readHexDigits, hdigit, Option.bind_eq_bind, Option.bind_some, Option.some.injEq]
    rw [hsplit, Nat.pow_succ', Nat.mul_add, Nat.mul_assoc]
    omega

theorem length_hexDigits (n k : Nat) : (hexDigits n k).length = k := by
  induction k generalizing n with
  | zero => rfl
  | succ k ih => rw [hexDigits, List.length_append, ih, List.length_singleton]

theorem ofHex?_toHex (x : Binary32) : ofHex? x.toHex = some x := by
  have hread := readHexDigits_hexDigits 0 x.bits.toNat 8
  have hfit : x.bits.toNat % 16 ^ 8 = x.bits.toNat := Nat.mod_eq_of_lt x.bits.toNat_lt
  rw [Nat.mul_zero, Nat.zero_add, hfit] at hread
  rw [ofHex?, toHex, String.toList_ofList, if_pos (length_hexDigits _ _), hread, Option.map_some,
    UInt32.ofNat_toNat]

end Binary32

/-- A reader gives a value back from its document if the value is finite, and finds a wrong kind of
value otherwise. -/
structure Carries {α : Type} (r : Reader α) (d : Document) (x : α) (finite : Prop) : Prop where
  read : finite → r d = .ok x
  refuse : ¬finite → r d = fail .wrongKind

namespace Carries

open Document Reader

theorem always {α : Type} {r : Reader α} {d : Document} {x : α} (h : r d = .ok x) :
    Carries r d x True := ⟨fun _ => h, fun hfinite => absurd trivial hfinite⟩

theorem of_iff {α : Type} {r : Reader α} {d : Document} {x : α} {finite finite' : Prop}
    (h : Carries r d x finite) (hiff : finite ↔ finite') : Carries r d x finite' :=
  propext hiff ▸ h

theorem word32 (n : UInt32) : Carries Reader.word32 (ofWord32 n) n True := by
  have hn := n.toNat_lt
  have hin : (0 : Int) ≤ n.toNat ∧ (n.toNat : Int) < 0x100000000 := by omega
  apply always
  simp only [Reader.word32, ofWord32, Reader.integer, if_pos hin, pure_eq_ok, ok_bind,
    Int.toNat_natCast, UInt32.ofNat_toNat]

theorem word64 (n : UInt64) : Carries Reader.word64 (ofWord64 n) n True := by
  have hn := n.toNat_lt
  have hin : (0 : Int) ≤ n.toNat ∧ (n.toNat : Int) < 0x10000000000000000 := by omega
  apply always
  simp only [Reader.word64, ofWord64, Reader.integer, if_pos hin, pure_eq_ok, ok_bind,
    Int.toNat_natCast, UInt64.ofNat_toNat]

theorem int32 (n : Int32) : Carries Reader.int32 (ofInt32 n) n True := by
  have hlo := n.le_toInt
  have hhi := n.toInt_lt
  have hin : -0x80000000 ≤ n.toInt ∧ n.toInt < 0x80000000 := by omega
  apply always
  simp only [Reader.int32, ofInt32, Reader.integer, if_pos hin, pure_eq_ok, ok_bind,
    Int32.ofInt_toInt]

theorem boolean (b : Bool) : Carries Reader.boolean (.boolean b) b True := always rfl

theorem comparison (c : Comparison) : Carries Reader.comparison (ofComparison c) c True := by
  apply always
  simp only [Reader.comparison, ofComparison, Comparison.ofName?_name, pure_eq_ok]

theorem number (x : Binary32) : Carries Reader.number (ofNumber x) x (x.isFinite = true) where
  read := fun h => by
    simp only [Reader.number, ofNumber, if_pos h, Binary32.ofHex?_toHex, pure_eq_ok]
  refuse := fun h => by
    simp only [Reader.number, ofNumber, if_neg h]

theorem list {α : Type} {r : Reader α} {f : α → Document} {finite : α → Prop} {xs : List α}
    (h : ∀ x ∈ xs, Carries r (f x) x (finite x)) :
    Carries (Reader.list r) (.list (xs.map f)) xs (∀ x ∈ xs, finite x) := by
  induction xs with
  | nil =>
    have hnil : Reader.list r (.list ([].map f)) = .ok [] := rfl
    exact (always hnil).of_iff ⟨fun _ => nofun, fun _ => trivial⟩
  | cons x xs ih =>
    obtain ⟨hx, hxs⟩ := List.forall_mem_cons.mp h
    have hcons : Reader.list r (.list ((x :: xs).map f)) =
        r (f x) >>= fun y => Reader.list r (.list (xs.map f)) >>= fun ys => .ok (y :: ys) :=
      List.mapM_cons
    rw [List.forall_mem_cons]
    constructor
    · rintro ⟨hfinite, hrest⟩
      rw [hcons, hx.read hfinite, ok_bind, (ih hxs).read hrest, ok_bind]
    · intro hnot
      rw [hcons]
      by_cases hfinite : finite x
      · have hrest : ¬∀ y ∈ xs, finite y := fun hall => hnot ⟨hfinite, hall⟩
        rw [hx.read hfinite, ok_bind, (ih hxs).refuse hrest, fail_bind]
      · rw [hx.refuse hfinite, fail_bind]

theorem array {α : Type} {r : Reader α} {f : α → Document} {finite : α → Prop} {xs : Array α}
    (h : ∀ x ∈ xs, Carries r (f x) x (finite x)) :
    Carries (Reader.array r) (ofArray f xs) xs (∀ x ∈ xs, finite x) := by
  have hlist : Carries (Reader.list r) (.list (xs.toList.map f)) xs.toList
      (∀ x ∈ xs.toList, finite x) := list fun x hx => h x (Array.mem_toList_iff.mp hx)
  simp only [Array.mem_toList_iff] at hlist
  constructor
  · intro hfinite
    simp only [Reader.array, ofArray, hlist.read hfinite, ok_bind, pure_eq_ok]
  · intro hnot
    simp only [Reader.array, ofArray, hlist.refuse hnot, fail_bind]

/-- An array of values that are all finite by nature. -/
theorem column {α : Type} {r : Reader α} {f : α → Document} (xs : Array α)
    (h : ∀ x, Carries r (f x) x True) : Carries (Reader.array r) (ofArray f xs) xs True :=
  (array fun x _ => h x).of_iff ⟨fun _ => trivial, fun _ _ _ => trivial⟩

theorem numbers (xs : Array Binary32) :
    Carries (Reader.array Reader.number) (ofArray ofNumber xs) xs
      (∀ x ∈ xs, x.isFinite = true) := array fun x _ => number x

/-- A value that may be absent, and is written as null where it is. -/
theorem option {α : Type} {r : Reader α} {d : Document} {finite : α → Prop} {x : Option α}
    (hnone : x = none → d = .null)
    (hsome : ∀ y, x = some y → d ≠ .null ∧ Carries r d y (finite y)) :
    Carries (Reader.option r) d x (∀ y, x = some y → finite y) := by
  cases x with
  | none =>
    have hread : Reader.option r d = .ok none := by rw [hnone rfl]; rfl
    exact (always hread).of_iff ⟨fun _ => nofun, fun _ => trivial⟩
  | some y =>
    obtain ⟨hnull, h⟩ := hsome y rfl
    have hread : Reader.option r d = r d >>= fun x => .ok (some x) := by
      unfold Reader.option
      split
      next => exact absurd rfl hnull
      next => rfl
    constructor
    · intro hfinite
      rw [hread, h.read (hfinite y rfl), ok_bind]
    · intro hnot
      have hy : ¬finite y := fun hfinite => hnot fun _ hx => Option.some.inj hx ▸ hfinite
      rw [hread, h.refuse hy, fail_bind]

theorem check {α : Type} {r : Reader α} {d : Document} {x : α} {finite : Prop}
    (h : Carries r d x finite) : Carries (Reader.check r) d () finite where
  read := fun hfinite => by simp only [Reader.check, h.read hfinite, ok_bind, pure_eq_ok]
  refuse := fun hnot => by simp only [Reader.check, h.refuse hnot, fail_bind]

end Carries

/-- The check of one field: a known one must be readable. -/
def checkField (known : List (String × Reader Unit)) (f : String × Document) :
    Attempt LoadError Unit :=
  match known.lookup f.1 with
  | some r => r f.2
  | none => pure ()

theorem checkedFields_ok_iff {known : List (String × Reader Unit)}
    {fields read : List (String × Document)} :
    checkedFields known (.record fields) = .ok read ↔
      read = fields ∧ ∀ f ∈ fields, checkField known f = .ok () := by
  have heq : checkedFields known (.record fields) =
      (fields.mergeSort fun a b => decide (a.1 ≤ b.1)).forM (checkField known) >>=
        fun _ => .ok fields := rfl
  rw [heq]
  constructor
  · intro h
    obtain ⟨_, hall, h⟩ := bind_eq_ok_iff.mp h
    cases h
    exact ⟨rfl, fun f hf => forM_eq_ok_iff.mp hall f (List.mem_mergeSort.mpr hf)⟩
  · rintro ⟨rfl, hall⟩
    exact bind_eq_ok_iff.mpr
      ⟨(), forM_eq_ok_iff.mpr fun f hf => hall f (List.mem_mergeSort.mp hf), rfl⟩

/-- Fields of a record that are all known, and what it takes for their values to be finite. -/
inductive Written (known : List (String × Reader Unit)) : List (String × Document) → Prop → Prop
  | nil : Written known [] True
  | cons {name : String} {d : Document} {r : Reader Unit} {fields : List (String × Document)}
      {finite rest : Prop} (hname : known.lookup name = some r) (hd : Carries r d () finite)
      (hrest : Written known fields rest) : Written known ((name, d) :: fields) (finite ∧ rest)

namespace Written

/-- A field without numbers adds nothing to what it takes for a record to be finite. -/
theorem plain {known : List (String × Reader Unit)} {name : String} {d : Document}
    {r : Reader Unit} {fields : List (String × Document)} {finite : Prop}
    (hname : known.lookup name = some r) (hd : Carries r d () True)
    (hrest : Written known fields finite) : Written known ((name, d) :: fields) finite :=
  true_and finite ▸ cons hname hd hrest

variable {known : List (String × Reader Unit)} {fields : List (String × Document)} {finite : Prop}

theorem field (h : Written known fields finite) :
    ∀ f ∈ fields, ∃ r part, known.lookup f.1 = some r ∧ Carries r f.2 () part ∧
      (finite → part) := by
  induction h with
  | nil => simp
  | cons hname hd _ ih =>
    rw [List.forall_mem_cons]
    refine ⟨⟨_, _, hname, hd, And.left⟩, fun f hf => ?_⟩
    obtain ⟨r, part, hlookup, hcarries, hpart⟩ := ih f hf
    exact ⟨r, part, hlookup, hcarries, fun hfinite => hpart hfinite.2⟩

theorem refused (h : Written known fields finite) (hnot : ¬finite) :
    ∃ f ∈ fields, ∃ r, known.lookup f.1 = some r ∧ r f.2 = fail .wrongKind := by
  induction h with
  | nil => exact absurd trivial hnot
  | @cons name d r fields finite rest hname hd _ ih =>
    by_cases hfinite : finite
    · obtain ⟨f, hf, hrefused⟩ := ih fun hrest => hnot ⟨hfinite, hrest⟩
      exact ⟨f, List.mem_cons_of_mem _ hf, hrefused⟩
    · exact ⟨(name, d), List.mem_cons_self, r, hname, hd.refuse hfinite⟩

/-- A record is checked field by field, in the order of the names. -/
theorem carries (h : Written known fields finite) :
    Carries (checkedFields known) (.record fields) fields finite := by
  let sorted := fields.mergeSort fun a b => decide (a.1 ≤ b.1)
  have heq : checkedFields known (.record fields) =
      sorted.forM (checkField known) >>= fun _ => .ok fields := rfl
  have hfield : ∀ {f r}, known.lookup f.1 = some r → checkField known f = r f.2 := by
    intro f r hlookup
    simp only [checkField, hlookup]
  constructor
  · intro hfinite
    refine checkedFields_ok_iff.mpr ⟨rfl, fun f hf => ?_⟩
    obtain ⟨r, part, hlookup, hcarries, hpart⟩ := h.field f hf
    rw [hfield hlookup, hcarries.read (hpart hfinite)]
  · intro hnot
    have hfail : sorted.forM (checkField known) = fail .wrongKind := by
      cases hrun : sorted.forM (checkField known) with
      | ok _ =>
        obtain ⟨f, hf, r, hlookup, hrefused⟩ := h.refused hnot
        have hok := forM_eq_ok_iff.mp hrun f (List.mem_mergeSort.mpr hf)
        rw [hfield hlookup, hrefused] at hok
        exact absurd hok fail_ne_ok
      | error e =>
        obtain ⟨f, hf, herror⟩ := exists_error_of_forM hrun
        obtain ⟨r, part, hlookup, hcarries, _⟩ := h.field f (List.mem_mergeSort.mp hf)
        rw [hfield hlookup] at herror
        by_cases hpart : part
        · cases (hcarries.read hpart).symm.trans herror
        · exact herror.symm.trans (hcarries.refuse hpart)
    rw [heq, hfail, fail_bind]

end Written

end TreeEnsemble
