import Criteria.Condition.Normal

/-!
# Normal forms

What `join` makes of parts, said without its loop: the dual's constant where one of the parts is
that constant, else the composite of all that the parts spread into (`join_eq`). From it comes the
shape of normal forms. A composite in one has no single part, and its parts are neither of its own
connective nor empty; normalizing always ends in such a form (`normal_normalize`).
-/

namespace Criteria

namespace Condition

/-- What a part gives to a `k` composite that it does not absorb. -/
def spread (k : Connective) : Condition → List Condition
  | atom a => [atom a]
  | composite j cs => if j = k then cs else [composite j cs]

/-- The `k` composite of the parts, or the part itself if it is the only one. -/
def ofParts (k : Connective) : List Condition → Condition
  | [c] => c
  | cs => composite k cs

theorem ofParts_of_length_ne_one {k : Connective} {cs : List Condition} (h : cs.length ≠ 1) :
    ofParts k cs = composite k cs := by
  unfold ofParts
  split
  · exact absurd rfl h
  · rfl

theorem splice_eq (k : Connective) (cs : List Condition) :
    splice k cs = if composite k.dual [] ∈ cs then none else some (cs.flatMap (spread k)) := by
  induction cs with
  | nil => rfl
  | cons c cs ih =>
    cases c with
    | atom a =>
      rw [splice, ih]
      split <;> simp_all [spread]
    | composite j parts =>
      rw [splice, ih]
      by_cases hj : j = k
      · subst hj
        simp only [↓reduceIte, List.mem_cons, composite.injEq, Connective.dual_ne, false_and,
          false_or, List.flatMap_cons, spread]
        split <;> rfl
      · obtain rfl := Connective.eq_dual_of_ne hj
        cases parts with
        | nil => simp [hj]
        | cons part parts =>
          simp only [hj, ↓reduceIte, List.isEmpty_cons, Bool.false_eq_true, List.mem_cons,
            composite.injEq, reduceCtorEq, and_false, false_or, List.flatMap_cons, spread]
          split <;> rfl

theorem join_eq (k : Connective) (cs : List Condition) :
    join k cs = if composite k.dual [] ∈ cs then composite k.dual []
      else ofParts k (cs.flatMap (spread k)) := by
  rw [join, splice_eq]
  by_cases h : composite k.dual [] ∈ cs
  · rw [if_pos h, if_pos h]
  · rw [if_neg h, if_neg h]
    generalize cs.flatMap (spread k) = ds
    cases ds with
    | nil => rfl
    | cons d ds => cases ds <;> rfl

/-- Whether a `k` composite in normal form may have the part. -/
def FitsIn (k : Connective) : Condition → Prop
  | atom _ => True
  | composite j cs => j ≠ k ∧ cs ≠ []

inductive Normal : Condition → Prop where
  | atom (a : Atom) : Normal (atom a)
  | composite {k : Connective} {cs : List Condition} (parts : ∀ c ∈ cs, Normal c)
      (fits : ∀ c ∈ cs, FitsIn k c) (several : cs.length ≠ 1) : Normal (composite k cs)

section
variable {k : Connective} {c : Condition} {cs : List Condition}

theorem spread_of_fits (h : FitsIn k c) : spread k c = [c] := by
  cases c with
  | atom a => rfl
  | composite j cs => exact if_neg h.1

theorem flatMap_spread_of_fits (h : ∀ c ∈ cs, FitsIn k c) : cs.flatMap (spread k) = cs := by
  induction cs with
  | nil => rfl
  | cons c cs ih =>
    obtain ⟨hc, hcs⟩ := List.forall_mem_cons.mp h
    rw [List.flatMap_cons, spread_of_fits hc, ih hcs, List.singleton_append]

/-- A normal part spreads into normal parts that fit, unless it absorbs the others. -/
theorem normal_spread (h : Normal c) (hc : c ≠ composite k.dual []) :
    ∀ d ∈ spread k c, Normal d ∧ FitsIn k d := by
  intro d hd
  cases h with
  | atom a =>
    rw [List.mem_singleton.mp hd]
    exact ⟨.atom a, trivial⟩
  | @composite j cs parts fits several =>
    by_cases hj : j = k
    · subst hj
      rw [spread, if_pos rfl] at hd
      exact ⟨parts d hd, fits d hd⟩
    · rw [spread, if_neg hj] at hd
      rw [List.mem_singleton.mp hd]
      exact ⟨.composite parts fits several, hj, fun he => hc (by rw [he, Connective.eq_dual_of_ne hj])⟩

theorem normal_spread_all (h : ∀ c ∈ cs, Normal c) (hd : composite k.dual [] ∉ cs) :
    ∀ d ∈ cs.flatMap (spread k), Normal d ∧ FitsIn k d := by
  intro d hm
  obtain ⟨c, hc, hdc⟩ := List.mem_flatMap.mp hm
  exact normal_spread (h c hc) (ne_of_mem_of_not_mem hc hd) d hdc

theorem normal_ofParts (h : ∀ c ∈ cs, Normal c) (hf : ∀ c ∈ cs, FitsIn k c) :
    Normal (ofParts k cs) := by
  unfold ofParts
  split
  · exact h _ List.mem_cons_self
  · next hne =>
    exact .composite h hf fun hl => by
      obtain ⟨c, rfl⟩ := List.length_eq_one_iff.mp hl
      exact hne c rfl

theorem normal_join (h : ∀ c ∈ cs, Normal c) : Normal (join k cs) := by
  rw [join_eq]
  split
  · exact .composite (by simp) (by simp) (by decide)
  · next hd =>
    have hs := normal_spread_all h hd
    exact normal_ofParts (fun c hc => (hs c hc).1) fun c hc => (hs c hc).2

theorem normal_normalize (c : Condition) : Normal c.normalize := by
  induction c with
  | atom a => exact .atom a
  | composite k cs ih =>
    rw [normalize, normalizeAll_eq_map]
    exact normal_join (List.forall_mem_map.mpr ih)

/-! ## Joining normal parts -/

theorem ofParts_ne_dual_constant (hf : ∀ c ∈ cs, FitsIn k c) :
    ofParts k cs ≠ composite k.dual [] := by
  unfold ofParts
  split
  · next c => intro h; exact (h ▸ hf c List.mem_cons_self).2 rfl
  · intro h; exact Connective.dual_ne k (composite.inj h).1.symm

theorem spread_ofParts (hf : ∀ c ∈ cs, FitsIn k c) : spread k (ofParts k cs) = cs := by
  unfold ofParts
  split
  · next c => exact spread_of_fits (hf c List.mem_cons_self)
  · exact if_pos rfl

theorem join_eq_dual_constant_iff (h : ∀ c ∈ cs, Normal c) :
    join k cs = composite k.dual [] ↔ composite k.dual [] ∈ cs := by
  rw [join_eq]
  by_cases hd : composite k.dual [] ∈ cs
  · simp [hd]
  · simp only [hd, ↓reduceIte, iff_false]
    exact ofParts_ne_dual_constant fun c hc => (normal_spread_all h hd c hc).2

theorem spread_join (h : ∀ c ∈ cs, Normal c) (hd : composite k.dual [] ∉ cs) :
    spread k (join k cs) = cs.flatMap (spread k) := by
  rw [join_eq, if_neg hd]
  exact spread_ofParts fun c hc => (normal_spread_all h hd c hc).2

/-- A composite of one normal part is that part. -/
theorem join_singleton (h : Normal c) : join k [c] = c := by
  rw [join_eq]
  by_cases hd : composite k.dual [] ∈ [c]
  · rw [if_pos hd, List.mem_singleton.mp hd]
  · rw [if_neg hd, List.flatMap_singleton]
    cases h with
    | atom a => rfl
    | @composite j cs parts fits several =>
      by_cases hj : j = k
      · subst hj
        rw [spread, if_pos rfl, ofParts_of_length_ne_one several]
      · rw [spread, if_neg hj]; rfl

end

end Condition

end Criteria
