import Smtrat.PFE.PFEModule

/-!
# What a check passes

A formula that is passed should be implied by each of its origins, and each received formula should
follow from the formulas that are passed for it, or from the bounds alone.
-/

namespace Smtrat.PFE

open SparsePoly PropFormula VB ModuleInput List Option

universe u v w

variable {V : Type u} {B : Type v} {F : Type w} [LinearOrder V]

/-! ## Conjunctions -/

omit [LinearOrder V] in
/-- A formula is true if and only if what it is stored as is. -/
theorem satisfies_conjuncts (a : Assignment V B) (f : Formula (Atom V B)) :
    a.Satisfies f ↔ ∀ g ∈ conjuncts f, a.Satisfies g := by
  induction f using Formula.induction with
  | hconst b => exact forall_mem_singleton.symm
  | hatom p => exact forall_mem_singleton.symm
  | happ c fs ih =>
    cases c with
    | and =>
      rw [conjuncts, satisfies_app_and]
      induction fs with
      | nil =>
        refine iff_of_true (fun f hf => absurd hf not_mem_nil) fun g hg => ?_
        cases hg
      | cons f fs ihl =>
        rw [conjunctsAll, forall_mem_append, forall_mem_cons,
          ih f mem_cons_self, ihl fun g hg => ih g (mem_cons_of_mem _ hg)]
    | _ => exact forall_mem_singleton.symm

variable {m : ModuleInput (Atom V B)} {R : OriginRelation (Atom V B)}

section Operations

variable [DecidableEq B]

theorem represents_addReceived (hm : m.Represents R) {f : Formula (Atom V B)} (hf : m.Unshared f) :
    (addReceived f m).Represents (OriginRelation.give R f [f]) := by
  rw [addReceived, add_snd, parts, if_neg Bool.false_ne_true]
  exact hm.addElement_single hf f

theorem represents_addSubformula
    (hm : m.Represents R) (f : Formula (Atom V B)) {origins : List (Formula (Atom V B))}
    (hne : origins ≠ []) :
    (addSubformula f origins m).Represents (OriginRelation.giveAll R (conjuncts f) origins) := by
  have hvector : (m.allocate origins).vectors m.nextVector = origins := Function.update_self _ _ _
  rw [addSubformula, add_snd, parts, if_pos rfl]
  refine Represents.congr ((hm.allocate origins).addElements_shared
    (Nat.lt_succ_self m.nextVector) (by rwa [hvector])) fun g o => ?_
  rw [hvector]

/-- The passed formulas are cleared. -/
theorem represents_clear
    (hm : m.Represents R) : (clearPassedFormula m).Represents fun _ _ => False := by
  obtain ⟨hwf, hnil⟩ := hm.wellFormed.foldl_erase (m.elements.map (·.position))
    fun e he => List.mem_map_of_mem he
  refine ⟨hwf, fun e he => ?_, fun f => ?_⟩
  · rw [clearPassedFormula, hnil] at he
    exact absurd he not_mem_nil
  · refine iff_of_false (fun hf => ?_) fun h => h.choose_spec
    obtain ⟨e, he, -⟩ := hwf.contains_iff.mp hf
    rw [hnil] at he
    exact absurd he not_mem_nil

end Operations

/-! ## Justified formulas -/

variable (lib : Library V B) (content : F → Formula (Atom V B))

/-- Every origin is received and implies what it is an origin of. -/
def Justified (received : List F) (R : OriginRelation (Atom V B)) : Prop :=
  ∀ g o, R g o → (∃ f ∈ received, content f = o) ∧
    ∀ a : Assignment V B, a.Satisfies o → a.Satisfies g

/-- A received formula follows from what is passed for it or from the bounds, and bounds are passed
themselves. -/
structure Kept (bounds : List (Constraint V × F)) (R : OriginRelation (Atom V B)) (f : F) : Prop
    where
  bound : isBound (content f) → R (content f) (content f)
  follows : (∃ gs : List (Formula (Atom V B)), (∀ g ∈ gs, R g (content f)) ∧
      ∀ a : Assignment V B, (∀ g ∈ gs, a.Satisfies g) → a.Satisfies (content f)) ∨
    ∀ a : Assignment V B, (∀ p ∈ bounds, p.1.Sat a.arith) → a.Satisfies (content f)

variable {content}

variable {f : F}

theorem Kept.mono {bounds : List (Constraint V × F)} {R' : OriginRelation (Atom V B)}
    (h : Kept content bounds R f) (hR : ∀ g, R g (content f) → R' g (content f)) :
    Kept content bounds R' f where
  bound hf := hR _ (h.bound hf)
  follows := h.follows.imp_left fun ⟨gs, hgs, hfollows⟩ =>
    ⟨gs, fun g hg => hR g (hgs g hg), hfollows⟩

/-- A formula that is passed itself is kept. -/
theorem kept_self {bounds : List (Constraint V × F)}
    (h : R (content f) (content f)) : Kept content bounds R f :=
  ⟨fun _ => h, .inl ⟨[content f], forall_mem_singleton.mpr h,
    fun _ ha => ha _ (mem_singleton_self _)⟩⟩

/-! ## One formula -/

variable {bounds : VariableBounds V F} {stored : List (Constraint V × F)}

/-- The values in the intervals are those that meet the bounds. -/
theorem contains_completeBounds (h : bounds.Stores stored) {α : V → ℝ}
    (hα : ∀ p ∈ stored, p.1.Sat α) (x : V) : (completeBounds bounds x).Contains (α x) :=
  (h.sound_interval x α).mpr fun p hp _ => hα p hp

variable {x : V}

/-- A variable without origins of bounds is not bounded. -/
theorem contains_of_no_origins (h : bounds.Stores stored)
    (hx : bounds.getOriginsOfBounds x = []) (r : ℝ) : (completeBounds bounds x).Contains r := by
  obtain ⟨lower, upper, horigs, hlow, hup⟩ := h.sound_origins x
  rw [hx, eq_comm, append_eq_nil_iff] at horigs
  refine ⟨fun l strict hl => ?_, fun u strict hu => ?_⟩
  · obtain ⟨p, -, hp, -⟩ := hlow.2 _ hl
    rw [hp] at horigs
    exact absurd horigs.1 (cons_ne_nil _ _)
  · obtain ⟨p, -, hp, -⟩ := hup.2 _ hu
    rw [hp] at horigs
    exact absurd horigs.2 (cons_ne_nil _ _)

variable {o : F}

theorem mem_originsOfBounds {f : Formula (Atom V B)} :
    o ∈ originsOfBounds bounds f ↔ ∃ x ∈ gatherVariables f, o ∈ bounds.getOriginsOfBounds x := by
  rw [originsOfBounds, mem_flatMap]
  refine exists_congr fun x => and_congr_left fun _ => ?_
  rw [(perm_insertionSort (· ≤ ·) _).mem_iff, mem_dedup]

variable [DecidableEq B] (content bounds)

/-- A received formula is not passed as it is where another formula has the same vector of origins,
and a simplified formula is passed only if its variables are not bounded. -/
def Safe (f : F) (m : ModuleInput (Atom V B)) : Prop :=
  let formula := content f
  if isBound formula then m.Unshared formula
  else
    let simplified := simplify lib (completeBounds bounds) formula
    if simplified = .const false ∨ simplified = .const true then True
    else if simplified = formula then m.Unshared formula
    else originsOfBounds bounds formula = []

instance (f : F) (m : ModuleInput (Atom V B)) : Decidable (Safe lib content bounds f m) := by
  unfold Safe
  infer_instance

variable {content bounds}

variable {received : List F}

theorem passFormula_spec (hstor : bounds.Stores stored) {m' : ModuleInput (Atom V B)}
    (hm : m.Represents R)
    (hR : Justified content received R) (hf : f ∈ received)
    (hsafe : Safe lib content bounds f m) (h : passFormula lib content bounds f m = some m') :
    ∃ R', m'.Represents R' ∧ (∀ g o, R g o → R' g o) ∧ Justified content received R' ∧
      Kept content stored R' f := by
  -- the formula is passed as it is
  have hself (hunshared : m.Unshared (content f)) (hm' : addReceived (content f) m = m') :
      ∃ R', m'.Represents R' ∧ (∀ g o, R g o → R' g o) ∧ Justified content received R' ∧
        Kept content stored R' f := by
    refine ⟨_, hm' ▸ represents_addReceived hm hunshared, fun g o => .inl, ?_,
      kept_self (.inr ⟨rfl, mem_singleton_self _⟩)⟩
    rintro g o (ho | ⟨rfl, ho⟩)
    · exact hR g o ho
    · rw [mem_singleton.mp ho]
      exact ⟨⟨f, hf, rfl⟩, fun _ => id⟩
  rw [Safe] at hsafe
  rw [passFormula] at h
  dsimp only at hsafe h
  by_cases hbd : isBound (content f)
  · rw [if_pos hbd] at hsafe h
    exact hself hsafe (some.inj h)
  · rw [if_neg hbd] at hsafe h
    have hsimplify (a : Assignment V B)
        (ha : ∀ x, (completeBounds bounds x).Contains (a.arith x)) :=
      satisfies_simplify lib a (content f) fun x _ => ha x
    by_cases hfalse : simplify lib (completeBounds bounds) (content f) = .const false
    · rw [if_pos hfalse] at h
      cases h
    · rw [if_neg hfalse] at h
      by_cases htrue : simplify lib (completeBounds bounds) (content f) = .const true
      · -- the formula follows from the bounds
        rw [if_pos htrue] at h
        obtain rfl := some.inj h
        refine ⟨R, hm, fun _ _ => id, hR, fun hb => absurd hb hbd, .inr fun a ha => ?_⟩
        refine (hsimplify a (contains_completeBounds hstor ha)).mp ?_
        rw [htrue, satisfies_const]
      · rw [if_neg (not_or.mpr ⟨hfalse, htrue⟩)] at hsafe
        rw [if_neg htrue] at h
        by_cases hsame : simplify lib (completeBounds bounds) (content f) = content f
        · rw [if_pos hsame] at hsafe h
          exact hself hsafe (some.inj h)
        · -- no variable is bounded, and the only origin is the formula itself
          rw [if_neg hsame] at hsafe h
          rw [hsafe, map_nil, nil_append] at h
          obtain rfl := some.inj h
          have hequiv (a : Assignment V B) :
              a.Satisfies (simplify lib (completeBounds bounds) (content f)) ↔
                a.Satisfies (content f) := by
            refine satisfies_simplify lib a (content f) fun x hx => ?_
            refine contains_of_no_origins hstor (eq_nil_iff_forall_not_mem.mpr ?_) _
            intro o ho
            have hmem := mem_originsOfBounds.mpr ⟨x, hx, ho⟩
            rw [hsafe] at hmem
            exact absurd hmem not_mem_nil
          refine ⟨_, represents_addSubformula hm _ (cons_ne_nil _ _), fun g o => .inl, ?_,
            fun hb => absurd hb hbd, .inl ⟨_, fun g hg =>
              .inr ⟨hg, mem_singleton_self _⟩, fun a ha => ?_⟩⟩
          · rintro g o (ho | ⟨hg, ho⟩)
            · exact hR g o ho
            · rw [mem_singleton.mp ho]
              exact ⟨⟨f, hf, rfl⟩, fun a ha =>
                (satisfies_conjuncts a _).mp ((hequiv a).mpr ha) g hg⟩
          · exact (hequiv a).mp ((satisfies_conjuncts a _).mpr ha)

/-! ## The loop -/

variable (content bounds)

/-- Each turn of the loop is safe, as long as no formula is found to be false. -/
def SafeAll : List F → ModuleInput (Atom V B) → Prop
  | [], _ => True
  | f :: fs, m => Safe lib content bounds f m ∧
      ∀ m' ∈ passFormula lib content bounds f m, SafeAll fs m'

instance decidableSafeAll : (fs : List F) → (m : ModuleInput (Atom V B)) →
    Decidable (SafeAll lib content bounds fs m)
  | [], _ => isTrue trivial
  | f :: fs, m =>
    match h : passFormula lib content bounds f m with
    | none => decidable_of_iff (Safe lib content bounds f m) (by simp [SafeAll, h])
    | some m' =>
      have := decidableSafeAll fs m'
      decidable_of_iff (Safe lib content bounds f m ∧ SafeAll lib content bounds fs m')
        (by simp [SafeAll, h])

variable {content bounds}

variable {fs : List F}

theorem passFormulas_spec (hstor : bounds.Stores stored) (hm : m.Represents R)
    (hR : Justified content received R) (hfs : ∀ f ∈ fs, f ∈ received)
    (hsafe : SafeAll lib content bounds fs m) :
    ∃ R' done, fs = done ++ (passFormulas lib content bounds fs m).2 ∧
      (passFormulas lib content bounds fs m).1.Represents R' ∧ (∀ g o, R g o → R' g o) ∧
      Justified content received R' ∧ ∀ f ∈ done, Kept content stored R' f := by
  induction fs generalizing R m with
  | nil => exact ⟨R, [], rfl, hm, fun _ _ => id, hR, nofun⟩
  | cons f fs ih =>
    obtain ⟨hf, hfs⟩ := forall_mem_cons.mp hfs
    obtain ⟨hsafe, hrest⟩ := hsafe
    rw [passFormulas]
    cases hpass : passFormula lib content bounds f m with
    | none => exact ⟨R, [], rfl, hm, fun _ _ => id, hR, nofun⟩
    | some m' =>
      obtain ⟨R₁, hm₁, hmono₁, hR₁, hkept⟩ :=
        passFormula_spec lib hstor hm hR hf hsafe hpass
      obtain ⟨R₂, done, hsplit, hm₂, hmono₂, hR₂, hdone⟩ := ih hm₁ hR₁ hfs (hrest m' hpass)
      refine ⟨R₂, f :: done, congrArg _ hsplit, hm₂, fun g o h => hmono₂ g o (hmono₁ g o h),
        hR₂, ?_⟩
      exact forall_mem_cons.mpr ⟨hkept.mono fun g => hmono₂ g _, hdone⟩

theorem mem_of_passFormulas (h : f ∈ (passFormulas lib content bounds fs m).2) : f ∈ fs := by
  induction fs generalizing m with
  | nil => exact h
  | cons g fs ih =>
    rw [passFormulas] at h
    cases hpass : passFormula lib content bounds g m with
    | some m' =>
      rw [hpass] at h
      exact mem_cons_of_mem _ (ih h)
    | none =>
      rw [hpass] at h
      exact h

/-- The loop stops at a formula that is false under the bounds. -/
theorem simplify_eq_false {rest : List F}
    (h : (passFormulas lib content bounds fs m).2 = f :: rest) :
    simplify lib (completeBounds bounds) (content f) = .const false := by
  induction fs generalizing m with
  | nil => cases h
  | cons g fs ih =>
    rw [passFormulas] at h
    cases hpass : passFormula lib content bounds g m with
    | some m' =>
      rw [hpass] at h
      exact ih h
    | none =>
      rw [hpass] at h
      obtain ⟨rfl, -⟩ := List.cons.inj h
      rw [passFormula] at hpass
      dsimp only at hpass
      split_ifs at hpass with _ hfalse
      exact hfalse

/-! ## Origins of bounds -/

omit [DecidableEq B] in
/-- Values that meet the bounds with the origins of a variable are in its interval. -/
theorem contains_of_origins (hstor : bounds.Stores stored)
    (hlit : ∀ p ∈ stored, literal (content p.2) = some p.1) (a : Assignment V B)
    (h : ∀ o ∈ bounds.getOriginsOfBounds x, a.Satisfies (content o)) :
    (completeBounds bounds x).Contains (a.arith x) := by
  rw [completeBounds]
  cases hx : bounds.mpVariableMap.lookup x with
  | none =>
    rw [VariableBounds.interval_of_missing hx]
    exact ⟨nofun, nofun⟩
  | some y =>
    rw [VariableBounds.getOriginsOfBounds, hx] at h
    have hy := hstor.wellFormed x y hx
    have hend {b : Bound} (hact : y.isActive b) (hfin : b.mpLimit ≠ none)
        (h : ∀ o ∈ (y.mpOrigins b).head?.toList, a.Satisfies (content o)) :
        b.Sat (a.arith x) := by
      obtain ⟨p, hp, hhead, hb⟩ := hstor.head_origin hx hact hfin
      rw [hhead] at h
      exact (sat_boundOf hb a.arith).mp
        ((satisfies_literal (hlit p hp) a).mp (h p.2 (mem_singleton_self _)))
    rw [hstor.interval_eq hx, Variable.contains_interval]
    constructor
    · intro l hl
      have hfin : y.mpInfimum.mpLimit ≠ none := by
        rw [hl]
        exact some_ne_none l
      refine (hend hy.infimum.active hfin fun o ho => h o (mem_append_left _ ?_)).2
        (hy.sets.lower.all _ hy.infimum.mem).1 l hl
      rwa [if_neg (by simpa [Bound.isInfinite] using hfin)]
    · intro l hl
      have hfin : y.mpSupremum.mpLimit ≠ none := by
        rw [hl]
        exact some_ne_none l
      refine (hend hy.supremum.active hfin fun o ho => h o (mem_append_right _ ?_)).1
        (hy.sets.upper.all _ hy.supremum.mem).1 l hl
      rwa [if_neg (by simpa [Bound.isInfinite] using hfin)]

/-- A formula that is false under the bounds contradicts the origins of the bounds of its
variables. -/
theorem unsat_of_simplify (hstor : bounds.Stores stored)
    (hlit : ∀ p ∈ stored, literal (content p.2) = some p.1)
    (h : simplify lib (completeBounds bounds) (content f) = .const false) :
    ¬ ∃ a : Assignment V B, ∀ o ∈ originsOfBounds bounds (content f) ++ [f],
      a.Satisfies (content o) := by
  rintro ⟨a, ha⟩
  obtain ⟨horigs, hf⟩ := forall_mem_append.mp ha
  have hfalse := (satisfies_simplify lib a (content f) fun x hx =>
    contains_of_origins hstor hlit a fun o ho =>
      horigs o (mem_originsOfBounds.mpr ⟨x, hx, ho⟩)).mpr (hf f (mem_singleton_self f))
  rw [h, satisfies_const] at hfalse
  cases hfalse

/-- The origins of bounds are origins of stored bounds. -/
theorem mem_getOriginsOfBounds (hstor : bounds.Stores stored)
    (h : o ∈ bounds.getOriginsOfBounds x) : ∃ p ∈ stored, p.2 = o := by
  obtain ⟨lower, upper, horigs, hlow, hup⟩ := hstor.sound_origins x
  rw [horigs] at h
  rcases mem_append.mp h with h | h
  · cases hl : (bounds.getInterval x).1.lower with
    | none =>
      rw [hlow.1 hl] at h
      exact absurd h not_mem_nil
    | some l =>
      obtain ⟨p, hp, heq, -⟩ := hlow.2 l hl
      rw [heq] at h
      exact ⟨p, hp, (mem_singleton.mp h).symm⟩
  · cases hu : (bounds.getInterval x).1.upper with
    | none =>
      rw [hup.1 hu] at h
      exact absurd h not_mem_nil
    | some l =>
      obtain ⟨p, hp, heq, -⟩ := hup.2 l hu
      rw [heq] at h
      exact ⟨p, hp, (mem_singleton.mp h).symm⟩

/-! ## Variables with one value -/

variable (bounds) in
/-- A variable that has only one value is fixed by an equation. -/
def FixedByEquations : Prop :=
  ∀ x ∈ bounds.mpVariableMap.keys, ∀ y ∈ bounds.mpVariableMap.lookup x,
    pointOf (completeBounds bounds x) ≠ none →
      y.mpInfimum.mType = .equal ∧ y.mpSupremum.mType = .equal

instance : Decidable (FixedByEquations bounds) := by
  unfold FixedByEquations
  infer_instance

theorem pointOf_eq_some {i : Interval} {c : ℚ} (h : pointOf i = some c) :
    i.lower = some (c, false) ∧ i.upper = some (c, false) := by
  rw [pointOf] at h
  split at h
  · next l u hl hu =>
      rw [ite_none_right_eq_some] at h
      obtain ⟨rfl, hc⟩ := h
      rw [hl, hu, some.inj hc]
      exact ⟨rfl, rfl⟩
  · cases h

omit [DecidableEq B] in
/-- The origins of the bounds of a variable that is fixed by an equation imply its value. -/
theorem value_of_fixed (hstor : bounds.Stores stored)
    (hlit : ∀ p ∈ stored, literal (content p.2) = some p.1) (hfixed : FixedByEquations bounds) {c : ℚ} (hc : pointOf (completeBounds bounds x) = some c) (a : Assignment V B)
    (ho : o ∈ bounds.getOriginsOfBounds x) (ha : a.Satisfies (content o)) : a.arith x = c := by
  cases hx : bounds.mpVariableMap.lookup x with
  | none =>
    rw [VariableBounds.getOriginsOfBounds, hx] at ho
    exact absurd ho not_mem_nil
  | some y =>
    have hkey : x ∈ bounds.mpVariableMap.keys := by
      rw [← AList.mem_keys, ← AList.lookup_isSome, hx]
      rfl
    obtain ⟨hinf, hsup⟩ := hfixed x hkey y hx (by rw [hc]; exact some_ne_none c)
    have hy := hstor.wellFormed x y hx
    rw [completeBounds, hstor.interval_eq hx] at hc
    obtain ⟨hlow, hup⟩ := pointOf_eq_some hc
    -- an equation with the value as its limit
    have hend {b : Bound} (hact : y.isActive b) (htype : b.mType = .equal)
        (hlim : b.mpLimit = some c) (ho : o ∈ (y.mpOrigins b).head?.toList) :
        a.arith x = c := by
      have hfin : b.mpLimit ≠ none := by
        rw [hlim]
        exact some_ne_none c
      obtain ⟨p, hp, hhead, hb⟩ := hstor.head_origin hx hact hfin
      rw [hhead] at ho
      rw [mem_singleton.mp ho] at ha
      have hsat := (sat_boundOf hb a.arith).mp ((satisfies_literal (hlit p hp) a).mp ha)
      have hle := hsat.1 (by rw [Bound.isUpperBound, htype]) c hlim
      have hge := hsat.2 (by rw [Bound.isLowerBound, htype]) c hlim
      rw [htype, if_neg (by decide)] at hle hge
      exact le_antisymm hle hge
    rw [VariableBounds.getOriginsOfBounds, hx] at ho
    rcases mem_append.mp ho with ho | ho
    · obtain ⟨l, hl, hlc⟩ := map_eq_some_iff.mp hlow
      have hlim := (Prod.mk.inj hlc).1 ▸ hl
      rw [if_neg (by simp [Bound.isInfinite, hlim])] at ho
      exact hend hy.infimum.active hinf hlim ho
    · obtain ⟨l, hl, hlc⟩ := map_eq_some_iff.mp hup
      have hlim := (Prod.mk.inj hlc).1 ▸ hl
      rw [if_neg (by simp [Bound.isInfinite, hlim])] at ho
      exact hend hy.supremum.active hsup hlim ho

theorem generateVariableAssignment_spec (hstor : bounds.Stores stored)
    (hlit : ∀ p ∈ stored, literal (content p.2) = some p.1)
    (hrec : ∀ p ∈ stored, p.2 ∈ received) (hfixed : FixedByEquations bounds) (hm : m.Represents R)
    (hR : Justified content received R) (x : V) :
    ∃ R', (generateVariableAssignment lib content bounds m x).Represents R' ∧
      (∀ g o, R g o → R' g o) ∧ Justified content received R' := by
  rw [generateVariableAssignment]
  cases hc : pointOf (completeBounds bounds x) with
  | none => exact ⟨R, hm, fun _ _ => id, hR⟩
  | some c =>
    have hne : (bounds.getOriginsOfBounds x).map content ≠ [] := by
      intro hnil
      have hcont := contains_of_no_origins hstor (map_eq_nil_iff.mp hnil)
      obtain ⟨hlow, -⟩ := pointOf_eq_some hc
      have hle := (hcont (c - 1)).1 c false hlow
      rw [if_neg Bool.false_ne_true] at hle
      linarith
    refine ⟨_, represents_addSubformula hm _ hne, fun g o => .inl, ?_⟩
    rintro g o (ho | ⟨hg, ho⟩)
    · exact hR g o ho
    · obtain ⟨f, hf, rfl⟩ := List.mem_map.mp ho
      obtain ⟨p, hp, rfl⟩ := mem_getOriginsOfBounds hstor hf
      refine ⟨⟨p.2, hrec p hp, rfl⟩, fun a ha => ?_⟩
      refine (satisfies_conjuncts a _).mp ((lib.satisfies_constraint a _ _).mpr ?_) g hg
      have hval := value_of_fixed hstor hlit hfixed hc a hf ha
      simp [Relation.evaluate, hval]

theorem generateVariableAssignments_spec (hstor : bounds.Stores stored)
    (hlit : ∀ p ∈ stored, literal (content p.2) = some p.1)
    (hrec : ∀ p ∈ stored, p.2 ∈ received) (hfixed : FixedByEquations bounds) (hm : m.Represents R)
    (hR : Justified content received R) :
    ∃ R', (generateVariableAssignments lib content bounds m).Represents R' ∧
      (∀ g o, R g o → R' g o) ∧ Justified content received R' := by
  rw [generateVariableAssignments]
  generalize bounds.mpVariableMap.keys.insertionSort (· ≤ ·) = xs
  induction xs generalizing R m with
  | nil => exact ⟨R, hm, fun _ _ => id, hR⟩
  | cons x xs ih =>
    obtain ⟨R₁, hm₁, hmono₁, hR₁⟩ :=
      generateVariableAssignment_spec lib hstor hlit hrec hfixed hm hR x
    obtain ⟨R₂, hm₂, hmono₂, hR₂⟩ := ih hm₁ hR₁
    exact ⟨R₂, hm₂, fun g o h => hmono₂ g o (hmono₁ g o h), hR₂⟩

end Smtrat.PFE
