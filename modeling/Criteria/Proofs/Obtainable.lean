import Criteria.Proofs.Decoding
import Criteria.Recipe

/-!
# Obtainable conditions

What a finite sequence of calls can make: recipes are run one after the other, each with what was
made before bound to names, and the operands that are given to calls are canonical, as all operands
there are. A property of atoms that negation keeps holds of every atom of what a recipe makes if it
holds of what is bound and of what the recipe starts from (`run_returns`). What factories make of
their arguments is said once, atom by atom (`Recipe.Call.crafted_run`). Just those conditions are
obtainable whose atoms are all proper (`obtainable_iff`).
-/

namespace Criteria

open Condition (Every every_atom every_composite)

namespace Recipe

def Call.operands : Call → List Operand
  | eq a _ | ne a _ | gt a _ | ge a _ | lt a _ | le a _ => [a]
  | between min max _ => [min, max]
  | isIn as _ | notIn as _ => as
  | comparison _ _ a => [a]
  | _ => []

inductive Source where
  | call (c : Call)
  | text (s : String)

def Source.run : Source → Recorded Failure Condition
  | call c => c.run.mapError .refused
  | text s => (Recorded.ofDecode (Condition.decode s)).mapError .undecodable

def Source.operands : Source → List Operand
  | call c => c.operands
  | text _ => []

mutual

/-- The calls and the texts in a recipe. -/
def sources : Recipe → List Source
  | call c => [.call c]
  | decode s => [.text s]
  | bound _ => []
  | gather _ rs | composite _ rs => sourcesOf rs
  | and a b | or a b => sources a ++ sources b
  | not r | negate r | normalize r | part r _ | copies _ _ r => sources r
  | layers _ _ r rs => sources r ++ sourcesOf rs

def sourcesOf : List Recipe → List Source
  | [] => []
  | r :: rs => sources r ++ sourcesOf rs

end

/-! ## Runs -/

section
variable {P : Atom → Prop} {bindings : Bindings}

theorem every_gather {ε : Type} {k : Connective} {cs : List Condition}
    (h : ∀ c ∈ cs, Every P c) : (Condition.gather k cs : Recorded ε Condition).Returns (Every P) :=
  .after fun _ => Recorded.returns_pure (every_composite.mpr h)

theorem every_wrap {kinds : List Connective} {n : Nat} {c : Condition} {beside : List Condition}
    (hc : Every P c) (hbeside : ∀ c ∈ beside, Every P c) :
    (wrap kinds n c beside).Returns (Every P) :=
  .foldlM (fun _ _ hd => every_gather (List.forall_mem_cons.mpr ⟨hd, hbeside⟩)) hc _

mutual

theorem run_returns (negate : ∀ a, P a → P a.negate) (bound : ∀ p ∈ bindings, Every P p.2)
    (r : Recipe) (h : ∀ s ∈ r.sources, s.run.Returns (Every P)) :
    (r.run bindings).Returns (Every P) := by
  match r with
  | .call c => exact h (.call c) List.mem_cons_self
  | .decode s => exact h (.text s) List.mem_cons_self
  | .bound name =>
    rw [run]
    split
    · next c hc =>
      obtain ⟨_, _, hsplit, _⟩ := List.lookup_eq_some_iff.mp hc
      exact Recorded.returns_pure (bound (name, c) (by simp [hsplit]))
    · exact Recorded.returns_error _
  | .gather k rs =>
    rw [run]
    exact (runAll_returns negate bound rs h).bind fun cs hcs => every_gather hcs
  | .composite k rs =>
    rw [run]
    exact (runAll_returns negate bound rs h).bind fun cs hcs =>
      Recorded.returns_pure (every_composite.mpr hcs)
  | .and a b | .or a b =>
    obtain ⟨ha, hb⟩ := List.forall_mem_append.mp h
    rw [run]
    refine (run_returns negate bound a ha).bind fun c hc => ?_
    refine (run_returns negate bound b hb).bind fun d hd => ?_
    exact Recorded.returns_pure (every_composite.mpr (by simp [hc, hd]))
  | .not r =>
    rw [run]
    refine (run_returns negate bound r h).bind fun c hc => ?_
    exact .after fun _ => Recorded.returns_pure (hc.negate negate)
  | .negate r =>
    rw [run]
    exact (run_returns negate bound r h).bind fun c hc =>
      Recorded.returns_pure (hc.negate negate)
  | .normalize r =>
    rw [run]
    exact (run_returns negate bound r h).bind fun c hc => Recorded.returns_pure hc.normalize
  | .part r index =>
    rw [run]
    refine (run_returns negate bound r h).bind fun c hc => ?_
    split
    · next d hd => exact Recorded.returns_pure (hc.parts d (List.mem_of_getElem? hd))
    · exact Recorded.returns_error _
  | .copies k n r =>
    rw [run]
    refine (run_returns negate bound r h).bind fun c hc => ?_
    refine Recorded.returns_pure (every_composite.mpr fun d hd => ?_)
    rw [List.eq_of_mem_replicate hd]
    exact hc
  | .layers kinds n r rs =>
    obtain ⟨hr, hrs⟩ := List.forall_mem_append.mp h
    rw [run]
    refine (run_returns negate bound r hr).bind fun c hc => ?_
    exact (runAll_returns negate bound rs hrs).bind fun cs hcs => every_wrap hc hcs

theorem runAll_returns (negate : ∀ a, P a → P a.negate) (bound : ∀ p ∈ bindings, Every P p.2)
    (rs : List Recipe) (h : ∀ s ∈ sourcesOf rs, s.run.Returns (Every P)) :
    (runAll bindings rs).Returns fun cs => ∀ c ∈ cs, Every P c := by
  match rs with
  | [] => exact Recorded.returns_pure (by simp)
  | r :: rs =>
    obtain ⟨hr, hrs⟩ := List.forall_mem_append.mp h
    rw [runAll]
    refine (run_returns negate bound r hr).bind fun c hc => ?_
    refine (runAll_returns negate bound rs hrs).bind fun cs hcs => ?_
    exact Recorded.returns_pure (List.forall_mem_cons.mpr ⟨hc, hcs⟩)

end

end

end Recipe

/-! ## Calls -/

/-- An atom that factories make when they are given the operands. -/
inductive Crafted (operands : List Operand) : Atom → Prop where
  | comparison {operator : Operator} {operand : Operand} (field : String)
      (given : operand ∈ operands) (plain : ∀ s, operand ≠ .text s)
      (compares : operator.isPattern = false) : Crafted operands (.comparison ⟨field, operator, operand⟩)
  | member {operator : Operator} (field : String) (compares : operator.isPattern = false) :
      Crafted operands (.comparison ⟨field, operator, .set (OperandSet.ofList operands)⟩)
  | literal {operator : Operator} (field s : String) (compares : operator.isPattern = false) :
      Crafted operands (.text ⟨field, operator, s, false⟩)
  | pattern {operator : Operator} (field p : String) (reads : operator.isPattern = true) :
      Crafted operands (.text ⟨field, operator, p, false⟩)
  | compiled {operator : Operator} (field : String) (w : Wildcards) (before : Bool)
      (literal : String) (after : Bool) (reads : operator.isPattern = true) :
      Crafted operands (.text ⟨field, operator, w.pattern before literal after, true⟩)

namespace Condition

theorem announce_outcome (x : Except BuildError Condition) : (announce x).outcome = x := by
  cases x <;> simp [announce]

section
variable {P : Atom → Prop} {operator : Operator} {operand : Operand} {field text : String}
  {escaped : Bool} {c : Condition}

theorem returns_announce {Q : Condition → Prop} {x : Except BuildError Condition}
    (h : ∀ c, x = .ok c → Q c) : (announce x).Returns Q :=
  fun c hc => h c ((announce_outcome x).symm.trans hc)

theorem every_of_comparison (h : comparison <$> Comparison.build field operator operand = .ok c)
    (hP : Comparison.Valid ⟨field, operator, operand⟩ → P (.comparison ⟨field, operator, operand⟩)) :
    c.Every P := by
  obtain ⟨d, hd, rfl⟩ := except_map_eq_ok_iff.mp h
  obtain ⟨rfl, hvalid⟩ := Comparison.build_eq_ok_iff.mp hd
  exact every_atom.mpr (hP hvalid)

theorem every_of_textTest (h : Condition.text <$> TextTest.build field operator text escaped = .ok c)
    (hP : TextTest.Valid ⟨field, operator, text, escaped⟩ →
      P (.text ⟨field, operator, text, escaped⟩)) : c.Every P := by
  obtain ⟨t, ht, rfl⟩ := except_map_eq_ok_iff.mp h
  obtain ⟨rfl, hvalid⟩ := TextTest.build_eq_ok_iff.mp ht
  exact every_atom.mpr (hP hvalid)

end

/-- Whether every atom is valid and crafted from the operands. -/
abbrev CraftedFrom (operands : List Operand) : Condition → Prop :=
  Every fun a => a.Valid ∧ Crafted operands a

section
variable {operator : Operator} {operand : Operand} {operands : List Operand} {field text : String}
  {c : Condition}

theorem crafted_of_compared (given : operand ∈ operands) (ho : operator.isPattern = false)
    (h : compared operator operand field = .ok c) : CraftedFrom operands c := by
  obtain ⟨_, -, h⟩ := except_bind_eq_ok_iff.mp h
  split at h
  · exact every_of_textTest h fun hvalid => ⟨hvalid, .literal field _ ho⟩
  · next htext =>
    exact every_of_comparison h fun hvalid => ⟨hvalid, .comparison field given htext ho⟩

theorem crafted_compared (ho : operator.isPattern = false) :
    (announce (compared operator operand field)).Returns (CraftedFrom [operand]) :=
  returns_announce fun _ => crafted_of_compared List.mem_cons_self ho

theorem crafted_between {min max : Operand} :
    (between min max field).Returns (CraftedFrom [min, max]) := by
  refine returns_announce fun c h => ?_
  obtain ⟨lower, hlower, h⟩ := except_bind_eq_ok_iff.mp h
  obtain ⟨upper, hupper, h⟩ := except_bind_eq_ok_iff.mp h
  cases h
  have hl : CraftedFrom [min, max] lower := crafted_of_compared (by simp) rfl hlower
  have hu : CraftedFrom [min, max] upper := crafted_of_compared (by simp) rfl hupper
  exact every_composite.mpr (by simp [hl, hu])

theorem crafted_member (ho : operator.isPattern = false) :
    (announce (member operator operands field)).Returns (CraftedFrom operands) := by
  refine returns_announce fun c h => ?_
  unfold member OperandSet.ofList? at h
  split at h
  · cases h
  · next es hes =>
    split at hes
    · cases hes
    · cases hes
      exact every_of_comparison h fun hvalid => ⟨hvalid, .member field ho⟩

theorem crafted_pattern (ho : operator.isPattern = true) :
    (announce (Condition.text <$> TextTest.build field operator text false)).Returns
      (CraftedFrom operands) :=
  returns_announce fun _ h => every_of_textTest h fun hvalid => ⟨hvalid, .pattern field text ho⟩

theorem crafted_matching {single multi : Char} {before after : Bool}
    (ho : operator.isPattern = true) :
    (matching operator single multi before text after field).Returns (CraftedFrom operands) := by
  have hcompile : (compileLike single multi before text after).Returns fun p =>
      ∃ w : Wildcards, p = w.pattern before text after := by
    refine .after fun w => ?_
    intro p hp
    cases hp
    exact ⟨w, rfl⟩
  refine hcompile.bind fun p ⟨w, hp⟩ => returns_announce fun c h => ?_
  subst hp
  exact every_of_textTest h fun hvalid => ⟨hvalid, .compiled field w before text after ho⟩

end

end Condition

open Condition in
/-- A factory makes valid atoms of what it is given. -/
theorem Recipe.Call.crafted_run (c : Call) (h : c.IsFactory) :
    c.run.Returns (CraftedFrom c.operands) := by
  cases c with
  | eq | ne | gt | ge | lt | le => exact crafted_compared rfl
  | between => exact crafted_between
  | isIn | notIn => exact crafted_member rfl
  | like | notLike => exact crafted_pattern rfl
  | likeWith | notLikeWith | startsWith | endsWith | contains | notStartsWith | notEndsWith
  | notContains => exact crafted_matching rfl
  | comparison | text => exact h.elim

theorem Crafted.canonical {operands : List Operand} {a : Atom} (h : Crafted operands a)
    (hcanonical : ∀ a ∈ operands, a.Canonical) : a.Canonical := by
  cases h with
  | comparison field given => exact hcanonical _ given
  | member => exact OperandSet.canonical_ofList hcanonical
  | literal | pattern | compiled => trivial

open Condition in
theorem Recipe.Call.proper_run (c : Call) (h : ∀ a ∈ c.operands, a.Canonical) :
    c.run.Returns (Every Atom.Proper) := by
  by_cases hfactory : c.IsFactory
  · intro d hd a ha
    obtain ⟨hvalid, hcrafted⟩ := c.crafted_run hfactory d hd a ha
    exact ⟨hvalid, hcrafted.canonical h⟩
  · cases c with
    | comparison field operator a =>
      exact Recorded.returns_ofBuild fun _ hc =>
        every_of_comparison hc fun hvalid => ⟨hvalid, h a List.mem_cons_self⟩
    | text field operator s escaped =>
      exact Recorded.returns_ofBuild fun _ hc =>
        every_of_textTest hc fun hvalid => ⟨hvalid, trivial⟩
    | _ => exact absurd trivial hfactory

theorem Recipe.Source.proper_run (s : Source) (h : ∀ a ∈ s.operands, a.Canonical) :
    s.run.Returns (Every Atom.Proper) := by
  cases s with
  | call c => exact (Call.proper_run c h).mapError
  | text s =>
    refine (Recorded.returns_ofDecode fun c hc => ?_).mapError
    obtain ⟨j, -, hj⟩ := Json.exists_of_decode hc
    exact Condition.proper_of_read hj

namespace Condition

/-- What a finite sequence of calls can make. Besides a tree, an atom or a composite can be decoded
that is written without the name of its shape. -/
inductive Obtainable : Condition → Prop where
  | run {bindings : Bindings} {r : Recipe} {c : Condition} (bound : ∀ p ∈ bindings, Obtainable p.2)
      (operands : ∀ s ∈ r.sources, ∀ a ∈ s.operands, a.Canonical)
      (made : (r.run bindings).outcome = .ok c) : Obtainable c
  | comparison {text : String} {c : Comparison} (h : Comparison.decode text = .ok c) :
      Obtainable (comparison c)
  | text {text : String} {t : TextTest} (h : TextTest.decode text = .ok t) :
      Obtainable (Condition.text t)
  | composite {text : String} {c : Condition} (h : decodeComposite text = .ok c) : Obtainable c

theorem Obtainable.proper {c : Condition} (h : Obtainable c) : c.Every Atom.Proper := by
  induction h with
  | @run bindings r c bound operands made ih =>
    exact Recipe.run_returns (P := Atom.Proper) (fun _ => Atom.Proper.negate) ih r
      (fun s hs => s.proper_run (operands s hs)) c made
  | comparison h =>
    obtain ⟨j, -, hj⟩ := Json.exists_of_decode h
    exact every_atom.mpr (Comparison.proper_of_read hj)
  | text h =>
    obtain ⟨j, -, hj⟩ := Json.exists_of_decode h
    exact every_atom.mpr (TextTest.proper_of_read hj)
  | composite h =>
    obtain ⟨j, -, hj⟩ := Json.exists_of_decode h
    exact proper_of_readComposite hj

/-- A recipe for a tree, which builds every atom of it directly. -/
theorem exists_recipe (c : Condition) (h : c.Every Atom.Proper) :
    ∃ r : Recipe, (∀ s ∈ r.sources, ∀ a ∈ s.operands, a.Canonical) ∧
      (r.run []).outcome = .ok c := by
  induction c with
  | atom a =>
    have ha := every_atom.mp h
    cases a with
    | comparison c =>
      have hbuild := Comparison.build_eq_ok_iff.mpr ⟨rfl, ha.valid⟩
      refine ⟨.call (.comparison c.field c.operator c.operand), ?_, ?_⟩
      · have hoperand : c.operand.Canonical := ha.canonical
        simpa [Recipe.sources, Recipe.Source.operands, Recipe.Call.operands] using hoperand
      · simp [Recipe.run, Recipe.Call.run, Recorded.mapError, hbuild, comparison]
    | text t =>
      have hbuild := TextTest.build_eq_ok_iff.mpr ⟨rfl, ha.valid⟩
      refine ⟨.call (.text t.field t.operator t.text t.escaped), ?_, ?_⟩
      · simp [Recipe.sources, Recipe.Source.operands, Recipe.Call.operands]
      · simp [Recipe.run, Recipe.Call.run, Recorded.mapError, hbuild, text]
  | composite k cs ih =>
    have hcs : ∃ rs, (∀ s ∈ Recipe.sourcesOf rs, ∀ a ∈ s.operands, a.Canonical) ∧
        (Recipe.runAll [] rs).outcome = .ok cs := by
      have h := every_composite.mp h
      induction cs with
      | nil => exact ⟨[], by simp [Recipe.sourcesOf], by simp [Recipe.runAll]⟩
      | cons c cs ihs =>
        obtain ⟨hc, hcs⟩ := List.forall_mem_cons.mp h
        obtain ⟨ihc, ihcs⟩ := List.forall_mem_cons.mp ih
        obtain ⟨r, hr, hrun⟩ := ihc hc
        obtain ⟨rs, hrs, hruns⟩ := ihs ihcs (every_composite.mpr hcs) hcs
        refine ⟨r :: rs, ?_, ?_⟩
        · rw [Recipe.sourcesOf]
          exact List.forall_mem_append.mpr ⟨hr, hrs⟩
        · simp [Recipe.runAll, hrun, hruns]
    obtain ⟨rs, hrs, hrun⟩ := hcs
    refine ⟨.composite k rs, hrs, ?_⟩
    simp [Recipe.run, hrun]

theorem obtainable_iff {c : Condition} : Obtainable c ↔ c.Every Atom.Proper := by
  constructor
  · exact Obtainable.proper
  · intro h
    obtain ⟨r, hr, hrun⟩ := exists_recipe c h
    exact @Obtainable.run [] r c (by simp) hr hrun

end Condition

end Criteria
