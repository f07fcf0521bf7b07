import Criteria.Proofs.Canonical

/-!
# The order of operands

Comparing operands is a total order: by kind first, and within a kind by content, two sets
lexicographically along their elements. What is equal in it is equal as an operand, and it does not
matter that equality takes a double as a number while the order takes it as a pattern
(`compare_total`).
-/

namespace Criteria

namespace Float64

instance : Std.TransOrd Float64 where
  eq_swap := fun {x y} => compare_swap y x
  isLE_trans := Std.TransOrd.isLE_trans (α := Int)

theorem bits_eq_zero_of_magnitude {x : Float64} (h : Binary64.magnitude x.bits = 0) : x.bits = 0 := by
  have hlt := x.bits.toNat_lt
  have hne : x.bits.toNat ≠ 2 ^ 63 := fun h => x.canonical (UInt64.toNat_inj.mp h)
  apply UInt64.toNat_inj.mp
  unfold Binary64.magnitude at h
  show x.bits.toNat = 0
  omega

/-- There is a single zero, so that doubles are the same number only if they are the same pattern. -/
theorem equal_iff {x y : Float64} : x.equal y = true ↔ x = y := by
  have hx : Binary64.magnitude x.bits < Binary64.infinity := of_decide_eq_true x.finite
  have hy : Binary64.magnitude y.bits < Binary64.infinity := of_decide_eq_true y.finite
  have heq : x = y ↔ x.bits = y.bits := by
    cases x
    cases y
    simp
  simp only [equal, Binary64.equal, Binary64.isNaN, Nat.not_lt.mpr (Nat.le_of_lt hx),
    Nat.not_lt.mpr (Nat.le_of_lt hy), decide_false, Bool.not_false, Bool.true_and,
    Bool.or_eq_true, Bool.and_eq_true, beq_iff_eq, heq]
  constructor
  · rintro (h | ⟨hx0, hy0⟩)
    · exact h
    · rw [bits_eq_zero_of_magnitude hx0, bits_eq_zero_of_magnitude hy0]
  · exact Or.inl

end Float64

namespace Operand

mutual

/-- Whether two operands are of one kind and have the same content, doubles the same number. -/
def equal : Operand → Operand → Bool
  | blob a, blob b => a == b
  | bool a, bool b => a == b
  | float x, float y => x.equal y
  | int m, int n => m == n
  | null, null => true
  | set as, set bs => equalAll as bs
  | text s, text t => s == t
  | uint m, uint n => m == n
  | _, _ => false

def equalAll : List Operand → List Operand → Bool
  | [], [] => true
  | a :: as, b :: bs => equal a b && equalAll as bs
  | _, _ => false

end

mutual

theorem equal_iff {a b : Operand} : equal a b = true ↔ a = b := by
  match a with
  | .set as => cases b <;> simp [equal, equalAll_iff (l := as)]
  | .blob _ | .bool _ | .float _ | .int _ | .null | .text _ | .uint _ =>
    cases b <;> simp [equal, Float64.equal_iff]

theorem equalAll_iff {l m : List Operand} : equalAll l m = true ↔ l = m := by
  match l, m with
  | [], [] | [], _ :: _ | _ :: _, [] => simp [equalAll]
  | a :: as, b :: bs => simp [equalAll, equal_iff (a := a), equalAll_iff (l := as)]

end

instance : LT Operand := ⟨fun a b => a.compare b = .lt⟩

instance (a b : Operand) : Decidable (a < b) :=
  inferInstanceAs (Decidable (a.compare b = .lt))

theorem lt_iff {a b : Operand} : a < b ↔ a.compare b = .lt := Iff.rfl

/-- Why an operand comes before another: its kind does, or it is of the same kind and its content
does. -/
inductive Precedes : Operand → Operand → Prop where
  | kind {a b : Operand} (h : a.rank < b.rank) : Precedes a b
  | blob {a b : List UInt8} (h : Ord.compare a b = .lt) : Precedes (blob a) (blob b)
  | bool {a b : Bool} (h : Ord.compare a b = .lt) : Precedes (bool a) (bool b)
  | float {x y : Float64} (h : Ord.compare x y = .lt) : Precedes (float x) (float y)
  | int {m n : Int64} (h : Ord.compare m n = .lt) : Precedes (int m) (int n)
  | set {as bs : List Operand} (h : compareAll as bs = .lt) : Precedes (set as) (set bs)
  | text {s t : String} (h : Ord.compare s.toList t.toList = .lt) : Precedes (text s) (text t)
  | uint {m n : UInt64} (h : Ord.compare m n = .lt) : Precedes (uint m) (uint n)

theorem precedes_of_lt {a b : Operand} (h : a < b) : a.Precedes b := by
  rw [lt_iff] at h
  cases a <;> cases b <;> first
    | exact .kind (Nat.compare_eq_lt.mp h)
    | exact .blob h
    | exact .bool h
    | exact .float h
    | exact .int h
    | exact .set h
    | exact .text h
    | exact .uint h

theorem lt_of_rank_lt {a b : Operand} (h : a.rank < b.rank) : a < b := by
  rw [lt_iff]
  cases a <;> cases b <;> first
    | exact Nat.compare_eq_lt.mpr h
    | exact absurd h (Nat.lt_irrefl _)

theorem rank_le_of_lt {a b : Operand} (h : a < b) : a.rank ≤ b.rank := by
  cases precedes_of_lt h with
  | kind h => exact Nat.le_of_lt h
  | blob | bool | float | int | set | text | uint => exact Nat.le_refl _

/-! ## Sets -/

theorem compareAll_cons {a b : Operand} {as bs : List Operand} :
    compareAll (a :: as) (b :: bs) = .lt ↔ a < b ∨ a = b ∧ compareAll as bs = .lt := by
  rw [compareAll, Ordering.then_eq_lt, compare_eq_iff, lt_iff]

theorem set_lt_set_iff {as bs : List Operand} : set as < set bs ↔ List.Lex (· < ·) as bs := by
  show compareAll as bs = .lt ↔ List.Lex (· < ·) as bs
  induction as generalizing bs with
  | nil =>
    cases bs with
    | nil => exact ⟨nofun, nofun⟩
    | cons b bs => exact ⟨fun _ => .nil, fun _ => rfl⟩
  | cons a as ih =>
    cases bs with
    | nil => exact ⟨nofun, nofun⟩
    | cons b bs =>
      rw [compareAll_cons, ih]
      constructor
      · rintro (h | ⟨rfl, h⟩)
        · exact .rel h
        · exact .cons h
      · rintro (_ | h | h)
        · exact .inl h
        · exact .inr ⟨rfl, h⟩

/-- Lists are ordered transitively if the elements of the first are. -/
theorem compareAll_trans {as bs cs : List Operand} (h : ∀ a ∈ as, ∀ {b c}, a < b → b < c → a < c)
    (hab : compareAll as bs = .lt) (hbc : compareAll bs cs = .lt) : compareAll as cs = .lt := by
  induction as generalizing bs cs with
  | nil =>
    cases cs with
    | nil => cases bs <;> cases hbc
    | cons c cs => rfl
  | cons a as ih =>
    obtain ⟨ha, has⟩ := List.forall_mem_cons.mp h
    cases bs with
    | nil => cases hab
    | cons b bs =>
      cases cs with
      | nil => cases hbc
      | cons c cs =>
        rw [compareAll_cons] at hab hbc ⊢
        rcases hab with hab | ⟨rfl, hab⟩
        · rcases hbc with hbc | ⟨rfl, -⟩
          · exact .inl (ha hab hbc)
          · exact .inl hab
        · rcases hbc with hbc | ⟨rfl, hbc⟩
          · exact .inl hbc
          · exact .inr ⟨rfl, ih has hab hbc⟩

/-! ## The order -/

theorem lt_trans {a b c : Operand} (hab : a < b) (hbc : b < c) : a < c := by
  induction a generalizing b c with
  | scalar a ha =>
    cases precedes_of_lt hab with
    | kind h => exact lt_of_rank_lt (Nat.lt_of_lt_of_le h (rank_le_of_lt hbc))
    | set => cases ha
    | blob h | bool h | float h | int h | text h | uint h =>
      cases precedes_of_lt hbc
      case kind h' => exact lt_of_rank_lt h'
      next h' => exact (Std.TransCmp.lt_trans h h' :)
  | set as ih =>
    cases precedes_of_lt hab with
    | kind h => exact lt_of_rank_lt (Nat.lt_of_lt_of_le h (rank_le_of_lt hbc))
    | set h =>
      cases precedes_of_lt hbc with
      | kind h' => exact lt_of_rank_lt h'
      | set h' => exact compareAll_trans (fun a ha _ _ => ih a ha) h h'

instance : Trans (fun a b : Operand => a < b) (fun a b => a < b) (fun a b => a < b) := ⟨lt_trans⟩

theorem gt_iff_lt {a b : Operand} : a.compare b = .gt ↔ b < a := by
  rw [lt_iff, compare_swap a b]
  cases a.compare b <;> simp

theorem lt_trichotomy (a b : Operand) :
    (a < b ∧ a ≠ b ∧ ¬ b < a) ∨ (¬ a < b ∧ a = b ∧ ¬ b < a) ∨ (¬ a < b ∧ a ≠ b ∧ b < a) := by
  rw [← gt_iff_lt (a := a), lt_iff, ne_eq, ← compare_eq_iff]
  cases a.compare b <;> simp

/-- Each kind comes before the next, whatever the contents. -/
theorem kinds_ascending (bytes : List UInt8) (b : Bool) (x : Float64) (n : Int64)
    (es : List Operand) (s : String) (m : UInt64) :
    [blob bytes, bool b, float x, int n, null, set es, text s, uint m].Pairwise (· < ·) := by
  have hranks : [0, 1, 2, 3, 4, 5, 6, 7].Pairwise (· < ·) := by decide
  exact (List.pairwise_map (f := rank).mp hranks).imp lt_of_rank_lt

theorem sorted_ofList (as : List Operand) : (OperandSet.ofList as).Pairwise (· < ·) :=
  List.isChain_iff_pairwise.mp (OperandSet.ascending_ofList as)

/-- Comparison is a total order of all operands, however deep their sets: exactly one of two
operands comes before the other or they are equal, and equality is that of contents. The kinds come
one after the other, and sets, of which the elements ascend, are compared lexicographically. -/
theorem compare_total (a b c : Operand) :
    ((a < b ∧ a ≠ b ∧ ¬ b < a) ∨ (¬ a < b ∧ a = b ∧ ¬ b < a) ∨ (¬ a < b ∧ a ≠ b ∧ b < a)) ∧
    b.compare a = (a.compare b).swap ∧
    (a < b → b < c → a < c) ∧
    (a.compare b = .eq ↔ a.equal b = true) ∧
    (a.equal b = true ↔ a = b) ∧
    (∀ bytes p x n es s m,
      [blob bytes, bool p, float x, int n, null, set es, text s, uint m].Pairwise (· < ·)) ∧
    ∀ es fs, (OperandSet.ofList es).Pairwise (· < ·) ∧
      (set es < set fs ↔ List.Lex (· < ·) es fs) := by
  refine ⟨lt_trichotomy a b, compare_swap a b, lt_trans, ?_, equal_iff, kinds_ascending, ?_⟩
  · rw [compare_eq_iff, equal_iff]
  · exact fun es fs => ⟨sorted_ofList es, set_lt_set_iff⟩

theorem compare_total_nested :
    set [set [], text "b"] < set [set [null]] ∧ set [set [null]] < set [set [null], int 3] ∧
      set [set [], text "b"] < set [set [null], int 3] :=
  ⟨by decide, by decide,
    (compare_total (set [set [], text "b"]) (set [set [null]]) (set [set [null], int 3])).2.2.1
      (by decide) (by decide)⟩

end Operand

end Criteria
