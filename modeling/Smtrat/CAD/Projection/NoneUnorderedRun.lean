import Smtrat.CAD.Projection.NoneUnordered

/-!
# Runs of the unordered projection

Polynomials are added with everything that can be projected from them.  The origins of a polynomial are
on levels below its own, and a removal erases origins on the level of the polynomial only.  So it never
removes anything, which is right if everything is still reachable from the other constraints.
-/

namespace Smtrat.CAD

universe u

open Saturation List Function Option

namespace ProjectionNU

variable {P : Type u}

def levels (s : ProjectionNU P) (level : ℕ) : Set P := {p | ∃ id, (p, id) ∈ s.polynomialIDs level}

/-- The map of a level fits its polynomials, and the origins are on levels below. -/
structure WellFormed (s : ProjectionNU P) : Prop where
  ids : ∀ level p id, (p, id) ∈ s.polynomialIDs level ↔ ∃ o, s.polynomials level id = some (p, o)
  unique : ∀ level p id id', (p, id) ∈ s.polynomialIDs level → (p, id') ∈ s.polynomialIDs level →
    id = id'
  used : ∀ level id, (s.polynomials level id).isSome → id ∈ s.idPools level
  origins : ∀ level id p o, s.polynomials level id = some (p, o) → o.Below level

/-- Nothing changes on the levels below, and the projection stays well-formed. -/
structure Grown (level : ℕ) (s s' : ProjectionNU P) : Prop where
  polynomials : ∀ k < level, s'.polynomials k = s.polynomials k
  idPools : ∀ k < level, s'.idPools k = s.idPools k
  wellFormed : s.WellFormed → s'.WellFormed

variable {s s' s'' : ProjectionNU P} {level : ℕ} {p : P}

theorem wellFormed_init : (init : ProjectionNU P).WellFormed where
  ids _ _ _ := iff_of_false not_mem_nil fun ⟨_, h⟩ => nomatch h
  unique _ _ _ _ h := absurd h not_mem_nil
  used _ _ h := absurd h Bool.false_ne_true
  origins _ _ _ _ h := nomatch h

theorem Grown.refl (s : ProjectionNU P) : Grown level s s where
  polynomials _ _ := rfl
  idPools _ _ := rfl
  wellFormed h := h

theorem Grown.trans (h : Grown level s s') (h' : Grown level s' s'') : Grown level s s'' where
  polynomials k hk := (h'.polynomials k hk).trans (h.polynomials k hk)
  idPools k hk := (h'.idPools k hk).trans (h.idPools k hk)
  wellFormed hs := h'.wellFormed (h.wellFormed hs)

variable {k : ℕ}

theorem Grown.mono (h : Grown k s s') (hk : level ≤ k) : Grown level s s' where
  polynomials l hl := h.polynomials l (hl.trans_le hk)
  idPools l hl := h.idPools l (hl.trans_le hk)
  wellFormed := h.wellFormed

/-! ## Single steps -/

theorem setPolynomial_apply (s : ProjectionNU P) (level id : ℕ) (entry : Option (P × Origin))
    (k id' : ℕ) : (s.setPolynomial level id entry).polynomials k id'
      = if k = level ∧ id' = id then entry else s.polynomials k id' := by
  rw [setPolynomial]
  dsimp only
  by_cases hk : k = level
  · subst hk
    rw [update_self]
    by_cases hid : id' = id
    · rw [hid, update_self, if_pos ⟨rfl, rfl⟩]
    · rw [update_of_ne hid, if_neg fun h => hid h.2]
  · rw [update_of_ne hk, if_neg fun h => hk h.1]

theorem setPolynomial_of_ne (s : ProjectionNU P) (id : ℕ) (entry : Option (P × Origin))
    (hk : k ≠ level) : (s.setPolynomial level id entry).polynomials k = s.polynomials k :=
  update_of_ne hk ..

variable {origin : BaseType}

/-- A polynomial that is present gets a further origin. -/
theorem grown_addOrigin (level id : ℕ) (horig : origin.level < level)
    (s : ProjectionNU P) : Grown level s (s.addOrigin level id origin) where
  polynomials k hk := setPolynomial_of_ne s id _ hk.ne
  idPools _ _ := rfl
  wellFormed hs := by
    have hent (k id' : ℕ) (q : P) (o : Origin)
        (h : (s.addOrigin level id origin).polynomials k id' = some (q, o)) :
        ∃ o', s.polynomials k id' = some (q, o') ∧ (o'.Below k → o.Below k) := by
      rw [addOrigin, setPolynomial_apply] at h
      split_ifs at h with hsame
      · obtain ⟨rfl, rfl⟩ := hsame
        obtain ⟨e, he, heq⟩ := map_eq_some_iff.mp h
        obtain ⟨rfl, rfl⟩ := Prod.mk.inj heq
        exact ⟨e.2, he, fun hbelow => hbelow.add horig⟩
      · exact ⟨o, h, fun hbelow => hbelow⟩
    have hsome (k id' : ℕ) (q : P) (o : Origin) (h : s.polynomials k id' = some (q, o)) :
        ∃ o', (s.addOrigin level id origin).polynomials k id' = some (q, o') := by
      rw [addOrigin, setPolynomial_apply]
      split_ifs with hsame
      · obtain ⟨rfl, rfl⟩ := hsame
        exact ⟨o.add origin, by rw [h, map_some]⟩
      · exact ⟨o, h⟩
    exact
      { ids := by
          intro k q id'
          refine (hs.ids k q id').trans ⟨fun ⟨o, ho⟩ => hsome k id' q o ho, fun ⟨o, ho⟩ => ?_⟩
          obtain ⟨o', ho', -⟩ := hent k id' q o ho
          exact ⟨o', ho'⟩
        unique := hs.unique
        used := by
          intro k id' h
          obtain ⟨⟨q, o⟩, ho⟩ := isSome_iff_exists.mp h
          obtain ⟨o', ho', -⟩ := hent k id' q o ho
          exact hs.used k id' (by rw [ho']; rfl)
        origins := by
          intro k id' q o ho
          obtain ⟨o', ho', hbelow⟩ := hent k id' q o ho
          exact hbelow (hs.origins k id' q o' ho') }

theorem grown_getID (pool : IDPool) (level : ℕ) (s : ProjectionNU P) :
    Grown level s (s.getID pool level).2 where
  polynomials _ _ := rfl
  idPools k hk := update_of_ne hk.ne ..
  wellFormed hs :=
    { ids := hs.ids
      unique := hs.unique
      used := by
        intro k id h
        have hused := hs.used k id h
        show id ∈ update s.idPools level _ k
        by_cases hk : k = level
        · subst hk
          rw [update_self]
          exact Finset.mem_insert_of_mem hused
        · rwa [update_of_ne hk]
      origins := hs.origins }

/-- Getting an id does not touch the polynomials. -/
theorem levels_getID (pool : IDPool) (level : ℕ) (s : ProjectionNU P) : (s.getID pool level).2.levels = s.levels :=
  rfl

/-! ## Removing -/

variable {id : ℕ}

theorem setPolynomial_self {entry : Option (P × Origin)}
    (h : s.polynomials level id = entry) : s.setPolynomial level id entry = s := by
  rw [setPolynomial, ← h, update_eq_self, update_eq_self]

/-- The polynomials of a level have no origins on it. -/
theorem WellFormed.eraseOrigins_eq (h : s.WellFormed) (filter : Finset ℕ) (n : ℕ) :
    s.eraseOrigins level filter n = s := by
  induction n with
  | zero => rfl
  | succ n ih =>
    have hround : (s.polynomialIDs level).foldl (fun s it => s.setPolynomial level it.2
        ((s.polynomials level it.2).map fun e => (e.1, e.2.erase level filter))) s = s := by
      refine List.foldlRecOn (motive := fun s' => s' = s) _ _ rfl ?_
      rintro s' rfl it -
      refine setPolynomial_self ?_
      cases hent : s'.polynomials level it.2 with
      | none => rfl
      | some e => rw [map_some, (h.origins level it.2 e.1 e.2 hent).erase_eq_self]
    rw [eraseOrigins, hround, ih]

/-- Every polynomial has an origin, so none is removed. -/
theorem WellFormed.removeLoop_eq (h : s.WellFormed) (rest : List (P × ℕ)) :
    removeLoop level rest s
      = (∅, { s with polynomialIDs := update s.polynomialIDs level rest }) := by
  induction rest with
  | nil => rfl
  | cons it rest ih =>
    have hnot : ¬ (s.polynomials level it.2).any fun e => e.2.isEmpty := by
      intro hany
      obtain ⟨e, he, hempty⟩ := (Option.any_eq_true _ _).mp hany
      exact (h.origins level it.2 e.1 e.2 he).1 (List.isEmpty_iff.mp hempty)
    rw [removeLoop, if_neg hnot, ih]
    dsimp only
    rw [update_self, update_idem]

/-- A removal changes nothing. -/
theorem WellFormed.removeLevels_eq (h : s.WellFormed) (n level : ℕ) (filter : Finset ℕ) :
    (removeLevels n level filter s).2 = s ∧
      ∀ call ∈ (removeLevels n level filter s).1, call.2 = ∅ := by
  induction n generalizing level filter with
  | zero => exact ⟨rfl, fun _ hcall => absurd hcall not_mem_nil⟩
  | succ n ih =>
    have hloop : removeLoop level (s.polynomialIDs level) s = (∅, s) := by
      rw [h.removeLoop_eq, update_eq_self]
    rw [removeLevels, h.eraseOrigins_eq]
    dsimp only
    rw [hloop]
    obtain ⟨hsame, hcalls⟩ := ih (level + 1) ∅
    exact ⟨hsame, forall_mem_cons.mpr ⟨rfl, hcalls⟩⟩

theorem WellFormed.removePolynomial_removed (h : s.WellFormed) (dim cid : ℕ) :
    Removed s.polynomialById (s.removePolynomial dim cid).2.polynomialById
      (s.removePolynomial dim cid).1 := by
  obtain ⟨hsame, hcalls⟩ := h.removeLevels_eq dim 1 {cid}
  rw [removePolynomial, hsame]
  constructor
  · intro level id
    constructor
    · rintro ⟨removed, hmem, hid⟩
      rw [show removed = ∅ from hcalls _ hmem] at hid
      exact absurd hid (Finset.notMem_empty id)
    · rintro ⟨hsome, hnone⟩
      rw [hnone] at hsome
      exact absurd hsome Bool.false_ne_true
  · exact fun _ _ _ hp => hp

theorem WellFormed.exists_polynomialById (h : s.WellFormed) :
    (∃ id, s.polynomialById level id = some p) ↔ p ∈ s.levels level := by
  refine exists_congr fun id => ?_
  rw [h.ids, polynomialById, map_eq_some_iff]
  constructor
  · rintro ⟨e, he, rfl⟩
    exact ⟨e.2, he⟩
  · rintro ⟨o, ho⟩
    exact ⟨(p, o), ho, rfl⟩

/-- A polynomial has one id on a level. -/
theorem WellFormed.id_eq (h : s.WellFormed) {id' : ℕ} (hid : s.polynomialById level id = some p)
    (hid' : s.polynomialById level id' = some p) : id = id' := by
  have hmem {i : ℕ} (hi : s.polynomialById level i = some p) : (p, i) ∈ s.polynomialIDs level := by
    obtain ⟨e, he, rfl⟩ := map_eq_some_iff.mp hi
    exact (h.ids level e.1 i).mpr ⟨e.2, he⟩
  exact h.unique level p id id' (hmem hid) (hmem hid')

/-! ## The invariant -/

section Invariant

variable (op : ProjectionOperator P) (dim : ℕ)

structure Inv (t : Tracked (ProjectionNU P) P) : Prop where
  wellFormed : t.projection.WellFormed
  levels : t.projection.levels
    = fun level => {p | Reach (op.plain dim) (polynomialsOf t.constraints) level p}

variable {op} {dim} {t t' : Tracked (ProjectionNU P) P}

theorem inv_init : Inv op dim ⟨[], init⟩ where
  wellFormed := wellFormed_init
  levels := by
    funext level
    ext p
    refine iff_of_false (fun ⟨_, h⟩ => not_mem_nil h) ?_
    rw [Set.mem_ofPred_eq, polynomialsOf_nil]
    exact not_reach_empty

theorem Inv.exact (h : Inv op dim t) :
    Exact (op.plain dim) t.constraints t.projection.polynomialById := by
  intro level p
  rw [h.wellFormed.exists_polynomialById, h.levels]
  rfl

/-- What is still demanded is what was there. -/
theorem Inv.levels_filter (h : Inv op dim t) {cid : ℕ}
    (hkeeps : ∀ level, ∀ q ∈ t.projection.levels level,
      Reach (op.plain dim) (polynomialsOf (t.constraints.filter (·.1 ≠ cid))) level q) :
    t.projection.levels = fun level =>
      {p | Reach (op.plain dim) (polynomialsOf (t.constraints.filter (·.1 ≠ cid))) level p} := by
  funext level
  ext q
  refine ⟨hkeeps level q, fun hreach => ?_⟩
  rw [h.levels]
  exact hreach.mono fun r ⟨c, hc⟩ => ⟨c, (mem_filter.mp hc).1⟩

end Invariant

/-! ## Adding -/

variable [LinearOrder P]

theorem WellFormed.find_eq_none :
    OrderedMap.find p (s.polynomialIDs level) = none ↔ p ∉ s.levels level := by
  rw [OrderedMap.find_eq_none]
  exact ⟨fun h ⟨id, hid⟩ => h id hid, fun h id hid => h ⟨id, hid⟩⟩

theorem levels_insertPolynomial_self (h : p ∉ s.levels level) (id : ℕ) (origin : BaseType) :
    (s.insertPolynomial level p id origin).levels level = insert p (s.levels level) := by
  ext q
  show (∃ id', (q, id') ∈ update s.polynomialIDs level _ level) ↔ _
  rw [update_self]
  simp only [OrderedMap.mem_emplace_iff (WellFormed.find_eq_none.mpr h), Prod.mk.injEq,
    Set.mem_insert_iff]
  constructor
  · rintro ⟨id', ⟨rfl, rfl⟩ | hid⟩
    · exact .inl rfl
    · exact .inr ⟨id', hid⟩
  · rintro (rfl | ⟨id', hid⟩)
    · exact ⟨id, .inl ⟨rfl, rfl⟩⟩
    · exact ⟨id', .inr hid⟩

theorem levels_insertPolynomial_of_ne (h : k ≠ level) (p : P) (id : ℕ) (origin : BaseType)
    (s : ProjectionNU P) : (s.insertPolynomial level p id origin).levels k = s.levels k := by
  ext q
  show (∃ id', (q, id') ∈ update s.polynomialIDs level _ k) ↔ _
  rw [update_of_ne h]
  rfl

/-- A new polynomial is stored under an id that is in use but has no polynomial yet. -/
theorem grown_insertPolynomial (h : p ∉ s.levels level)
    (hid : id ∈ s.idPools level) (hfree : s.polynomials level id = none)
    (horig : origin.level < level) : Grown level s (s.insertPolynomial level p id origin) where
  polynomials k hk := setPolynomial_of_ne s id _ hk.ne
  idPools _ _ := rfl
  wellFormed hs := by
    have hent (k id' : ℕ) : (s.insertPolynomial level p id origin).polynomials k id'
        = if k = level ∧ id' = id then some (p, Origin.ofBase origin) else s.polynomials k id' :=
      setPolynomial_apply s level id _ k id'
    exact
      { ids := by
          intro k q id'
          rw [hent]
          show (q, id') ∈ update s.polynomialIDs level _ k ↔ _
          by_cases hk : k = level
          · subst hk
            rw [update_self, OrderedMap.mem_emplace_iff (WellFormed.find_eq_none.mpr h),
              hs.ids]
            by_cases hsame : id' = id
            · subst hsame
              rw [hfree, if_pos ⟨rfl, rfl⟩]
              simp [eq_comm]
            · rw [if_neg fun h => hsame h.2]
              exact or_iff_right fun heq => hsame (Prod.mk.inj heq).2
          · rw [update_of_ne hk, if_neg fun h => hk h.1]
            exact hs.ids k q id'
        unique := by
          intro k q id₁ id₂ h₁ h₂
          have h₁ : (q, id₁) ∈ update s.polynomialIDs level _ k := h₁
          have h₂ : (q, id₂) ∈ update s.polynomialIDs level _ k := h₂
          by_cases hk : k = level
          · subst hk
            rw [update_self,
              OrderedMap.mem_emplace_iff (WellFormed.find_eq_none.mpr h)] at h₁ h₂
            rcases h₁ with h₁ | h₁ <;> rcases h₂ with h₂ | h₂
            · exact (Prod.mk.inj h₁).2.trans (Prod.mk.inj h₂).2.symm
            · exact absurd ⟨id₂, (Prod.mk.inj h₁).1 ▸ h₂⟩ h
            · exact absurd ⟨id₁, (Prod.mk.inj h₂).1 ▸ h₁⟩ h
            · exact hs.unique k q id₁ id₂ h₁ h₂
          · rw [update_of_ne hk] at h₁ h₂
            exact hs.unique k q id₁ id₂ h₁ h₂
        used := by
          intro k id' hsome
          rw [hent] at hsome
          split_ifs at hsome with hsame
          · obtain ⟨rfl, rfl⟩ := hsame
            exact hid
          · exact hs.used k id' hsome
        origins := by
          intro k id' q o ho
          rw [hent] at ho
          split_ifs at ho with hsame
          · obtain ⟨rfl, rfl⟩ := hsame
            obtain ⟨rfl, rfl⟩ := Prod.mk.inj (some_inj.mp ho)
            exact ⟨cons_ne_nil _ [], fun c hc => by rwa [mem_singleton.mp hc]⟩
          · exact hs.origins k id' q o ho }

/-! ## The projection -/

section Projection

variable (op : ProjectionOperator P) (pool : IDPool) {dim : ℕ}

theorem added_known (hrem : ¬ op.canBeRemoved p)
    (hfind : OrderedMap.find p (s.polynomialIDs level) = some id) (horig : origin.level < level) :
    Added (op.plain dim) level {p} s.levels (s.addOrigin level id origin).levels ∧
      Grown level s (s.addOrigin level id origin) := by
  have hpl : (op.plain dim).place level p = some (level, p) := if_neg hrem
  exact ⟨Added.of_placed ((placed_iff hpl).mpr ⟨id, OrderedMap.mem_of_find hfind⟩),
    grown_addOrigin level id horig s⟩

/-- A new polynomial is stored after what it sends on. -/
theorem added_new (hs : s.WellFormed) (hrem : ¬ op.canBeRemoved p)
    (hnot : p ∉ s.levels level) (horig : origin.level < level)
    (hadded : Added (op.plain dim) (level + 1) (sent (op.plain dim) level p (s.levels level)) s.levels
      s'.levels) (hgrown : Grown (level + 1) (s.getID pool level).2 s') :
    Added (op.plain dim) level {p} s.levels
        (s'.insertPolynomial level p (s.getID pool level).1 origin).levels ∧
      Grown level s (s'.insertPolynomial level p (s.getID pool level).1 origin) := by
  have hpl : (op.plain dim).place level p = some (level, p) := if_neg hrem
  have hlev : s'.levels level = s.levels level := hadded.below level (Nat.lt_succ_self level)
  have hnot' : p ∉ s'.levels level := by rwa [hlev]
  refine ⟨hadded.put hpl hnot (levels_insertPolynomial_self hnot' _ origin)
    fun k hk => levels_insertPolynomial_of_ne hk p _ origin s', ?_⟩
  refine ((grown_getID pool level s).trans (hgrown.mono (Nat.le_succ level))).trans
    (grown_insertPolynomial hnot' ?_ ?_ horig)
  · rw [hgrown.idPools level (Nat.lt_succ_self level)]
    show _ ∈ update s.idPools level _ level
    rw [update_self]
    exact Finset.mem_insert_self ..
  · rw [hgrown.polynomials level (Nat.lt_succ_self level)]
    exact not_isSome_iff_eq_none.mp fun h => pool.get_notMem _ (hs.used level _ h)

/-- The recursion adds the polynomial and what can be projected from it. -/
theorem addToProjection_spec {n : ℕ} (hn : n + level = dim) (hs : s.WellFormed)
    (horig : origin.level < level) :
    Added (op.plain dim) level {p} s.levels (addToProjection op pool n level p origin s).2.levels ∧
      Grown level s (addToProjection op pool n level p origin s).2 := by
  induction n generalizing level p origin s with
  | zero =>
    rw [addToProjection]
    split_ifs with hrem
    · exact ⟨Added.of_placed (Placed.of_none (if_pos hrem)), Grown.refl s⟩
    · cases hfind : OrderedMap.find p (s.polynomialIDs level) with
      | some id => exact added_known op hrem hfind horig
      | none =>
        refine added_new op pool hs hrem (WellFormed.find_eq_none.mp hfind) horig ?_
          (Grown.refl _)
        rw [sent_last (π := op.plain dim) (show dim ≤ level by omega), levels_getID pool]
        exact Added.refl _ _
  | succ n ih =>
    have hnext : n + (level + 1) = dim := by omega
    rw [addToProjection]
    split_ifs with hrem
    · exact ⟨Added.of_placed (Placed.of_none (if_pos hrem)), Grown.refl s⟩
    · cases hfind : OrderedMap.find p (s.polynomialIDs level) with
      | some id => exact added_known op hrem hfind horig
      | none =>
        dsimp only
        have hget : (s.getID pool level).2.WellFormed := (grown_getID pool level s).wellFormed hs
        obtain ⟨hadded, hgrown⟩ := loops_added (π := op.plain dim) (show level < dim by omega) p levels
          Grown.refl (fun _ _ _ => Grown.trans) (s.getID pool level).2
          (fun np => addToProjection op pool n (level + 1) np (BaseType.ofId level _))
          (fun it np => addToProjection op pool n (level + 1) np (BaseType.mk' level _ it.2))
          (fun s' => s'.polynomialIDs level) (fun it => it.1) (fun s' q => by simp [levels])
          (fun np s' hs' => ih hnext (hs'.wellFormed hget) (by simp))
          fun _ _ it _ np s' hs' => ih hnext (hs'.wellFormed hget) (by simp)
        exact added_new op pool hs hrem (WellFormed.find_eq_none.mp hfind) horig hadded hgrown

end Projection

/-! ## Runs -/

section Runs

variable (op : ProjectionOperator P) (pool : IDPool) (dim : ℕ)

/-- Constraints are removed in any order, and an id is not used twice at a time. -/
def step (t : Tracked (ProjectionNU P) P) : ProjectionEvent P → Option (Tracked (ProjectionNU P) P)
  | .addPolynomial p cid _ =>
    if cid ∈ t.constraints.map (·.1) then none
    else some ⟨(cid, p) :: t.constraints, (addPolynomial op pool dim p cid t.projection).2⟩
  | .removePolynomial p cid =>
    if (cid, p) ∈ t.constraints then
      some ⟨t.constraints.filter (·.1 ≠ cid), (t.projection.removePolynomial dim cid).2⟩
    else none
  | .projectNewPolynomial => some t

/-- A removal concerns polynomials that are reachable from the other constraints as well. -/
def Keeps (t : Tracked (ProjectionNU P) P) : ProjectionEvent P → Prop
  | .removePolynomial _ cid => ∀ level, ∀ q ∈ t.projection.levels level,
      Reach (op.plain dim) (polynomialsOf (t.constraints.filter (·.1 ≠ cid))) level q
  | _ => True

variable {op} {pool} {dim} {t t' : Tracked (ProjectionNU P) P}

theorem Inv.step (hdim : 0 < dim) (h : Inv op dim t) {e : ProjectionEvent P}
    (hkeeps : Keeps op dim t e) (hstep : step op pool dim t e = some t') : Inv op dim t' := by
  cases e with
  | addPolynomial p cid _ =>
    rw [ProjectionNU.step] at hstep
    split_ifs at hstep with hcid
    obtain rfl := some_inj.mp hstep
    obtain ⟨hadded, hgrown⟩ := addToProjection_spec op pool (p := p)
      (show dim - 1 + 1 = dim by omega) h.wellFormed
      ((BaseType.level_ofId 0 cid).trans_lt Nat.one_pos)
    rw [h.levels] at hadded
    refine ⟨hgrown.wellFormed h.wellFormed, ?_⟩
    rw [polynomialsOf_cons]
    exact hadded.reach
  | removePolynomial p cid =>
    rw [ProjectionNU.step] at hstep
    split_ifs at hstep with hmem
    obtain rfl := some_inj.mp hstep
    have hsame : (t.projection.removePolynomial dim cid).2 = t.projection :=
      (h.wellFormed.removeLevels_eq dim 1 {cid}).1
    rw [hsame]
    exact ⟨h.wellFormed, h.levels_filter hkeeps⟩
  | projectNewPolynomial =>
    obtain rfl := some_inj.mp hstep
    exact h

end Runs

end ProjectionNU

end Smtrat.CAD
