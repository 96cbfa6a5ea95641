import Smtrat.LRA.BoundSets

/-!
# The bounds of the tableau and its variables

The tableau's bounds are those of its variables: whatever the operations of the tableau do to
them, they do to the bound sets of one variable.
-/

namespace Smtrat.LRA

open Run List Function

/-! ## The bounds under an activation -/

theorem Tableau.activateUpperBound_toBounds (settings : TableauSettings) (t : Tableau) (b : Bound) :
    (t.activateUpperBound settings b).toBounds = { t.toBounds with
      supremum := if (t.supremum b.var).gt b then update t.supremum b.var b
        else t.supremum } := by
  simp only [activateUpperBound]
  split_ifs <;> rfl

theorem Tableau.activateLowerBound_toBounds (settings : TableauSettings) (t : Tableau) (b : Bound) :
    (t.activateLowerBound settings b).toBounds = { t.toBounds with
      infimum := if (t.infimum b.var).lt b then update t.infimum b.var b
        else t.infimum } := by
  simp only [activateLowerBound]
  split_ifs <;> rfl

/-- An activation adds the origin and replaces the supremum and the infimum by a stronger bound. -/
theorem Tableau.activateBound_toBounds (settings : TableauSettings) (t : Tableau) (b : Bound)
    (o : Origin) : (t.activateBound settings b o).toBounds = { t.toBounds with
      origins := update t.origins b (t.origins b ++ [o])
      supremum := if b.isUpperBound && (t.supremum b.var).gt b
        then update t.supremum b.var b else t.supremum
      infimum := if b.isLowerBound && (t.infimum b.var).lt b
        then update t.infimum b.var b else t.infimum } := by
  have hbasic : (if !(t.addOrigin b o).hasBound b.var && (t.addOrigin b o).isBasic b.var &&
      !(t.addOrigin b o).isOriginal b.var then (t.addOrigin b o).activateBasicVar settings b.var
      else t.addOrigin b o).toBounds = (t.addOrigin b o).toBounds := by
    rw [activateBasicVar]
    split_ifs <;> rfl
  simp only [activateBound]
  set t₁ := if !(t.addOrigin b o).hasBound b.var && (t.addOrigin b o).isBasic b.var &&
    !(t.addOrigin b o).isOriginal b.var then (t.addOrigin b o).activateBasicVar settings b.var
    else t.addOrigin b o
  cases b.isUpperBound with
  | true =>
    cases b.isLowerBound with
    | true =>
      simp only [if_true, Bool.true_and, activateLowerBound_toBounds,
        activateUpperBound_toBounds, hbasic]
      rfl
    | false =>
      simp only [if_true, Bool.true_and, Bool.false_and, Bool.false_eq_true, if_false,
        activateUpperBound_toBounds, hbasic]
      rfl
  | false =>
    cases b.isLowerBound with
    | true =>
      simp only [if_true, Bool.true_and, Bool.false_and, Bool.false_eq_true, if_false,
        activateLowerBound_toBounds, hbasic]
      rfl
    | false =>
      simp only [Bool.false_and, Bool.false_eq_true, if_false, hbasic]
      rfl

/-- `LRAModule::removeCore` takes origins from a bound, which is deactivated with the last. -/
def Bounds.eraseOrigins (s : Bounds) (b : Bound) (kept : List Origin) : Bounds :=
  let s' := { s with origins := update s.origins b kept }
  if s.isActive b && !s'.isActive b then (s'.deactivateBound b).1 else s'

/-- A bound is deactivated if it is active and no origin is left. -/
theorem Bounds.loses_last_iff (s : Bounds) (b : Bound) (kept : List Origin) :
    (s.isActive b && !Bounds.isActive { s with origins := update s.origins b kept } b) =
      true ↔ s.isActive b = true ∧ kept = [] := by
  rw [Bool.and_eq_true, Bool.not_eq_true']
  simp only [Bounds.isActive, update_self, Bool.not_eq_false', List.isEmpty_iff]

namespace Variable

variable {s : Variable} {b : BoundObject}

/-! ## The bounds of the tableau -/

/-- The variable's bounds are those the tableau knows of it, without their addresses. -/
structure Represents (s : Variable) (t : Bounds) : Prop where
  upperbounds : t.upperbounds s.mId = s.mUpperbounds.map BoundObject.toBound
  lowerbounds : t.lowerbounds s.mId = s.mLowerbounds.map BoundObject.toBound
  supremum : t.supremum s.mId = s.mpSupremum.toBound
  infimum : t.infimum s.mId = s.mpInfimum.toBound
  origins : ∀ b, s.Has b → t.origins b.toBound = s.origins b.address
  unknown : ∀ c : Bound, c.var = s.mId → c.isInfinite = false →
    (∀ b, s.Has b → b.toBound ≠ c) → t.origins c = []

/-- A bound is new exactly if there is none like it, and is entered in the same place. -/
theorem insert_bound {β : Type*} [LinearOrder β] {key : BoundObject → β} {side : Bound → Prop}
    {bs : List BoundObject} (hlt : OrderedSet.Follows BoundObject.less key fun b => side b.toBound)
    (hb : side b.toBound) (hside : ∀ c ∈ bs, side c.toBound) (hsorted : OrderedSet.Sorted key bs)
    (hkey : ∀ c d : BoundObject, side c.toBound → side d.toBound →
      (key c = key d ↔ c.toBound = d.toBound)) :
    ((OrderedSet.insert BoundObject.less b bs).2.2 = true ↔
      b.toBound ∉ bs.map BoundObject.toBound) ∧
    (OrderedSet.insert BoundObject.less b bs).1.map BoundObject.toBound =
      b.toBound.insert (bs.map BoundObject.toBound) := by
  have hins := OrderedSet.insert_spec hlt hb hside hsorted
  have hnew : (OrderedSet.insert BoundObject.less b bs).2.2 = true ↔
      b.toBound ∉ bs.map BoundObject.toBound := by
    constructor
    · intro hnew hold
      obtain ⟨c, hc, heq⟩ := mem_map.mp hold
      exact (hins.inserted hnew).2 c hc ((hkey c b (hside c hc) hb).mpr heq)
    · intro hold
      by_contra hnew
      rcases (hins.mem _).mp hins.found with hc | ⟨hnew', -⟩
      · exact hold (mem_map.mpr ⟨_, hc, (hkey _ b (hside _ hc) hb).mp hins.key_eq⟩)
      · exact hnew hnew'
  refine ⟨hnew, ?_⟩
  rw [OrderedSet.insert_eq hlt hb hside hsorted, Bound.insert]
  by_cases h : (OrderedSet.insert BoundObject.less b bs).2.2 = true
  · rw [if_pos h, if_neg (hnew.mp h), map_append, map_cons, takeWhile_map, dropWhile_map]
    rfl
  · rw [if_neg h, if_pos (not_not.mp (hnew.not.mp h))]

theorem SetsOrdered.insert_upper_eq (h : SetsOrdered s) (hb : b.toBound.IsUpperOf s.mId) :
    ((OrderedSet.insert BoundObject.less b s.mUpperbounds).2.2 = true ↔
      b.toBound ∉ s.mUpperbounds.map BoundObject.toBound) ∧
    (OrderedSet.insert BoundObject.less b s.mUpperbounds).1.map BoundObject.toBound =
      b.toBound.insert (s.mUpperbounds.map BoundObject.toBound) := by
  refine insert_bound (SetsOrdered.follows_upper s) hb h.upper h.upper_sorted fun c d hc hd => ?_
  refine (Bound.upperKey_eq_iff hc hd).trans ⟨fun heq => ?_, fun heq => heq ▸ ⟨rfl, rfl⟩⟩
  exact Bound.ext (hc.var.trans hd.var.symm) heq.1 heq.2

theorem SetsOrdered.insert_lower_eq (h : SetsOrdered s) (hb : b.toBound.IsLowerOf s.mId) :
    ((OrderedSet.insert BoundObject.less b s.mLowerbounds).2.2 = true ↔
      b.toBound ∉ s.mLowerbounds.map BoundObject.toBound) ∧
    (OrderedSet.insert BoundObject.less b s.mLowerbounds).1.map BoundObject.toBound =
      b.toBound.insert (s.mLowerbounds.map BoundObject.toBound) := by
  refine insert_bound (SetsOrdered.follows_lower s) hb h.lower h.lower_sorted fun c d hc hd => ?_
  refine (Bound.lowerKey_eq_iff hc hd).trans ⟨fun heq => ?_, fun heq => heq ▸ ⟨rfl, rfl⟩⟩
  exact Bound.ext (hc.var.trans hd.var.symm) heq.1 heq.2

theorem represents_new (v : VarId) : (new v).Represents Bounds.empty where
  upperbounds := rfl
  lowerbounds := rfl
  supremum := rfl
  infimum := rfl
  origins b hb := by
    rcases hb with hb | hb
    all_goals
      rw [mem_singleton.mp hb]
      rfl
  unknown c _ hfin _ := if_neg (by simp [hfin])

namespace Represents

variable {t : Bounds} (h : Ordered s) (hrep : s.Represents t)

include h hrep

/-- The origins stay those of the tableau when a new bound is entered. -/
theorem grow {n : BoundObject} {p q : Prop} {upper lower : List BoundObject}
    (hg : Grows s n p q upper lower) (hfin : n.isInfinite = false) (hvar : n.var = s.mId)
    (hnew : p ∨ q → ∀ b, s.Has b → b.toBound ≠ n.toBound) {t' : Bounds}
    (hup : t'.upperbounds s.mId = upper.map BoundObject.toBound)
    (hlow : t'.lowerbounds s.mId = lower.map BoundObject.toBound)
    (hsup : t'.supremum = t.supremum) (hinf : t'.infimum = t.infimum)
    (horigs : t'.origins = t.origins) :
    Represents { s with mUpperbounds := upper, mLowerbounds := lower, next := s.next + 1 } t' where
  upperbounds := hup
  lowerbounds := hlow
  supremum := (congrFun hsup s.mId).trans hrep.supremum
  infimum := (congrFun hinf s.mId).trans hrep.infimum
  origins b hb := by
    have hentered : s.Has b ∨ (p ∨ q) ∧ b = n := by
      rcases hb with hb | hb
      · rcases (hg.mem_upper b).mp hb with hb | ⟨hp, rfl⟩
        · exact .inl (.inl hb)
        · exact .inr ⟨.inl hp, rfl⟩
      · rcases (hg.mem_lower b).mp hb with hb | ⟨hq, rfl⟩
        · exact .inl (.inr hb)
        · exact .inr ⟨.inr hq, rfl⟩
    rw [horigs]
    rcases hentered with hb | ⟨hpq, rfl⟩
    · exact hrep.origins b hb
    · rw [hrep.unknown b.toBound hvar hfin (hnew hpq)]
      exact (h.unused b.address hg.address.ge).symm
  unknown c hc hinfinite hnone := by
    rw [horigs]
    refine hrep.unknown c hc hinfinite fun b hb => hnone b ?_
    exact hb.imp (fun hb => (hg.mem_upper b).mpr (.inl hb)) fun hb => (hg.mem_lower b).mpr (.inl hb)

theorem addUpperBound (limit : Value ℚ) (c : LinearConstraint) :
    (s.addUpperBound limit).2.Represents (t.addUpperBound s.mId limit c).2 := by
  let n : BoundObject := ⟨⟨s.mId, .upper, some limit⟩, s.next⟩
  have hbd : n.toBound.IsUpperOf s.mId := ⟨rfl, rfl, fun hnone => nomatch hnone⟩
  have hins := h.insert_upper hbd
  have hg : Grows s n ((OrderedSet.insert BoundObject.less n s.mUpperbounds).2.2 = true) False
      (OrderedSet.insert BoundObject.less n s.mUpperbounds).1 s.mLowerbounds :=
    ⟨rfl, hins.mem, fun b => by rw [false_and, or_false], hins.sorted, h.lower_sorted,
      fun _ => hbd, False.elim, fun heq => nomatch heq⟩
  have hsets : (t.addUpperBound s.mId limit c).2.upperbounds s.mId =
      n.toBound.insert (t.upperbounds s.mId) := by
    rw [Bounds.addUpperBound, Bound.insert]
    split_ifs
    · rfl
    · exact update_self _ _ _
  refine grow h hrep hg rfl rfl ?_ ?_ ?_ ?_ ?_ ?_
  · rintro (hp | hq) b hb heq
    · have hside : b.isUpperBound = true := by
        rw [heq]
        rfl
      exact (h.insert_upper_eq hbd).1.mp hp (mem_map.mpr ⟨b, h.mem_upper hb hside, heq⟩)
    · exact hq
  · rw [hsets, hrep.upperbounds, (h.insert_upper_eq hbd).2]
  all_goals
    rw [Bounds.addUpperBound]
    split_ifs
  all_goals first | exact hrep.lowerbounds | rfl

theorem addLowerBound (limit : Value ℚ) (c : LinearConstraint) :
    (s.addLowerBound limit).2.Represents (t.addLowerBound s.mId limit c).2 := by
  let n : BoundObject := ⟨⟨s.mId, .lower, some limit⟩, s.next⟩
  have hbd : n.toBound.IsLowerOf s.mId := ⟨rfl, rfl, fun hnone => nomatch hnone⟩
  have hins := h.insert_lower hbd
  have hg : Grows s n False ((OrderedSet.insert BoundObject.less n s.mLowerbounds).2.2 = true)
      s.mUpperbounds (OrderedSet.insert BoundObject.less n s.mLowerbounds).1 :=
    ⟨rfl, fun b => by rw [false_and, or_false], hins.mem, h.upper_sorted, hins.sorted,
      False.elim, fun _ => hbd, fun heq => nomatch heq⟩
  have hsets : (t.addLowerBound s.mId limit c).2.lowerbounds s.mId =
      n.toBound.insert (t.lowerbounds s.mId) := by
    rw [Bounds.addLowerBound, Bound.insert]
    split_ifs
    · rfl
    · exact update_self _ _ _
  refine grow h hrep hg rfl rfl ?_ ?_ ?_ ?_ ?_ ?_
  · rintro (hp | hq) b hb heq
    · exact hp
    · have hside : b.isLowerBound = true := by
        rw [heq]
        rfl
      exact (h.insert_lower_eq hbd).1.mp hq (mem_map.mpr ⟨b, h.mem_lower hb hside, heq⟩)
  rotate_left
  · rw [hsets, hrep.lowerbounds, (h.insert_lower_eq hbd).2]
  all_goals
    rw [Bounds.addLowerBound]
    split_ifs
  all_goals first | exact hrep.upperbounds | rfl

theorem addEqualBound (limit : Value ℚ) (c : LinearConstraint) :
    (s.addEqualBound limit).2.Represents (t.addEqualBound s.mId limit c).2 := by
  let n : BoundObject := ⟨⟨s.mId, .equal, some limit⟩, s.next⟩
  have hupper : n.toBound.IsUpperOf s.mId := ⟨rfl, rfl, fun hnone => nomatch hnone⟩
  have hlower : n.toBound.IsLowerOf s.mId := ⟨rfl, rfl, fun hnone => nomatch hnone⟩
  have hins := h.insert_lower hlower
  have hins' := h.insert_upper hupper
  obtain ⟨hnew, hsame⟩ := h.insert_lower_eq hlower
  have hsame' := (h.insert_upper_eq hupper).2
  rw [← hrep.lowerbounds] at hnew hsame
  rw [← hrep.upperbounds] at hsame'
  rw [Variable.addEqualBound, Bounds.addEqualBound]
  by_cases hlow : (OrderedSet.insert BoundObject.less n s.mLowerbounds).2.2 = true
  · have hup := h.insert_equal rfl hupper hlower hlow
    have hg := Grows.mk (s := s) (n := n) rfl hins'.mem hins.mem hins'.sorted
      hins.sorted (fun _ => hupper) (fun _ => hlower) fun _ => iff_of_true hup hlow
    simp only
    rw [if_pos hlow, if_neg (hnew.mp hlow)]
    refine grow h hrep hg rfl rfl ?_ ?_ ?_ rfl rfl rfl
    · intro _ b hb heq
      have hside : b.isLowerBound = true := by
        rw [heq]
        rfl
      exact (h.insert_lower_eq hlower).1.mp hlow (mem_map.mpr ⟨b, h.mem_lower hb hside, heq⟩)
    · rw [hsame']
      exact update_self _ _ _
    · rw [hsame]
      exact update_self _ _ _
  · have hg : Grows s n False ((OrderedSet.insert BoundObject.less n s.mLowerbounds).2.2 = true)
        s.mUpperbounds (OrderedSet.insert BoundObject.less n s.mLowerbounds).1 :=
      ⟨rfl, fun b => by rw [false_and, or_false], hins.mem, h.upper_sorted, hins.sorted,
        False.elim, fun _ => hlower, fun _ => iff_of_false id hlow⟩
    have hold : n.toBound ∈ t.lowerbounds s.mId := not_not.mp (hnew.not.mp hlow)
    simp only
    rw [if_neg hlow, if_pos hold]
    refine grow h hrep hg rfl rfl ?_ hrep.upperbounds ?_ rfl rfl rfl
    · rintro (hp | hq)
      · exact hp.elim
      · exact absurd hq hlow
    · rw [hsame, Bound.insert, if_pos hold]

/-- Other bounds keep their origins when those of one bound change. -/
theorem update_origins (hb : s.Has b) {c : BoundObject} (hc : s.Has c) (kept : List Origin) :
    update t.origins b.toBound kept c.toBound = update s.origins b.address kept c.address := by
  by_cases heq : c = b
  · rw [heq, update_self, update_self]
  · have haddress : c.address ≠ b.address := fun ha => heq (h.address_injective c b hc hb ha)
    have hbd : c.toBound ≠ b.toBound := fun hcb =>
      heq (h.unique hc hb (congrArg Bound.type hcb) (congrArg Bound.limit hcb))
    rw [update_of_ne hbd, update_of_ne haddress, hrep.origins c hc]

/-- The tableau finds the same supremum and infimum when a bound has lost its origins. -/
theorem deactivateBound (hb : s.Has b) (hfin : b.isInfinite = false) :
    Represents ({ s with origins := update s.origins b.address [] }.deactivateBound b).2
      ({ t with origins := update t.origins b.toBound [] }.deactivateBound b.toBound).1 := by
  let s₁ : Variable := { s with origins := update s.origins b.address [] }
  let t₁ : Bounds := { t with origins := update t.origins b.toBound [] }
  have hvar : b.var = s.mId := by
    rcases hb with hb | hb
    · exact (h.upper b hb).var
    · exact (h.lower b hb).var
  have hsame : ∀ c, s.Has c → (c.toBound = b.toBound ↔ c = b) := fun c hc =>
    ⟨fun heq => h.unique hc hb (congrArg Bound.type heq) (congrArg Bound.limit heq),
      fun heq => congrArg BoundObject.toBound heq⟩
  have horigs : ∀ c, s.Has c → t₁.origins c.toBound = s₁.origins c.address :=
    fun c hc => update_origins h hrep hb hc []
  have hact : ∀ c, s.Has c → t₁.isActive c.toBound = s₁.isActive c := by
    intro c hc
    rw [Bounds.isActive, horigs c hc, isActive]
  -- the infinite bounds are still active
  have hinfinite : ∀ c : BoundObject, c.isInfinite = true → c ≠ b := by
    rintro c hc rfl
    exact Bool.false_ne_true (hfin.symm.trans hc)
  have hkept : ∀ c, s.Has c → c.isInfinite = true → s.isActive c = true → s₁.isActive c = true := by
    intro c hc hc' hold
    rw [isActive_update, if_neg, hold]
    exact fun ha => hinfinite c hc' (h.address_injective c b hc hb ha)
  obtain ⟨u, hu, hu', huactive⟩ := h.infinite_upper
  obtain ⟨l, hl, hl', hlactive⟩ := h.infinite_lower
  have hfind : ∀ bs : List BoundObject, (∀ c ∈ bs, s.Has c) →
      (bs.map BoundObject.toBound).find? t₁.isActive =
        (bs.find? s₁.isActive).map BoundObject.toBound := by
    intro bs hbs
    rw [find?_map]
    congr 1
    induction bs with
    | nil => rfl
    | cons c bs ih =>
      rw [find?_cons, find?_cons, Function.comp, hact c (hbs c mem_cons_self),
        ih fun d hd => hbs d (mem_cons_of_mem c hd)]
  constructor
  case upperbounds => exact hrep.upperbounds
  case lowerbounds => exact hrep.lowerbounds
  case supremum =>
    have hsup : (t.supremum b.var == b.toBound) = (s.mpSupremum == b) := by
      rw [hvar, hrep.supremum, Bool.eq_iff_iff, beq_iff_eq, beq_iff_eq]
      exact hsame _ (.inl h.supremum_mem)
    show (if (b.isUpperBound && t.supremum b.var == b.toBound) = true then _ else t.supremum) s.mId =
      (if (b.isUpperBound && s.mpSupremum == b) = true then _ else s.mpSupremum).toBound
    rw [hsup]
    split_ifs
    · have hu₁ := hkept u (.inl hu) hu' huactive
      obtain ⟨c, hc⟩ := Option.isSome_iff_exists.mp (find?_isSome.mpr ⟨u, hu, hu₁⟩)
      rw [hvar, update_self, scan_eq_find? ⟨u, hu, hu₁⟩, hrep.upperbounds,
        hfind s.mUpperbounds fun c hc => .inl hc, hc]
      rfl
    · exact hrep.supremum
  case infimum =>
    have hinf : (t.infimum b.var == b.toBound) = (s.mpInfimum == b) := by
      rw [hvar, hrep.infimum, Bool.eq_iff_iff, beq_iff_eq, beq_iff_eq]
      exact hsame _ (.inr h.infimum_mem)
    show (if (b.isLowerBound && t.infimum b.var == b.toBound) = true then _ else t.infimum) s.mId =
      (if (b.isLowerBound && s.mpInfimum == b) = true then _ else s.mpInfimum).toBound
    rw [hinf]
    split_ifs
    · have hl₁ := hkept l (.inr hl) hl' hlactive
      have hl₂ : l ∈ s.mLowerbounds.reverse := mem_reverse.mpr hl
      obtain ⟨c, hc⟩ := Option.isSome_iff_exists.mp (find?_isSome.mpr ⟨l, hl₂, hl₁⟩)
      rw [hvar, update_self, scan_eq_find? ⟨l, hl₂, hl₁⟩, hrep.lowerbounds,
        ← map_reverse,
        hfind s.mLowerbounds.reverse fun c hc => .inr (mem_reverse.mp hc), hc]
      rfl
    · exact hrep.infimum
  case origins => exact horigs
  case unknown =>
    intro c hc hfin hnone
    refine (update_of_ne (hnone b hb).symm _ _).trans (hrep.unknown c hc hfin hnone)

omit h hrep in
/-- An activation in the tableau is one of the variable. -/
theorem activateBound (h : Ordered s) {settings : TableauSettings} {t : Tableau}
    (hrep : s.Represents t.toBounds) (hb : s.Has b) (o : Origin) :
    (s.activateBound b o).Represents (t.activateBound settings b.toBound o).toBounds := by
  have hvar : b.var = s.mId := by
    rcases hb with hb | hb
    · exact (h.upper b hb).var
    · exact (h.lower b hb).var
  have hres : s.activateBound b o = { s with
      origins := update s.origins b.address (s.origins b.address ++ [o])
      mpSupremum := if b.isUpperBound && s.mpSupremum.gt b.toBound then b else s.mpSupremum
      mpInfimum := if b.isLowerBound && s.mpInfimum.lt b.toBound then b else s.mpInfimum } := by
    simp only [Variable.activateBound]
    split_ifs <;> rfl
  rw [hres, Tableau.activateBound_toBounds]
  constructor
  case upperbounds => exact hrep.upperbounds
  case lowerbounds => exact hrep.lowerbounds
  case supremum =>
    simp only [hvar, hrep.supremum]
    split_ifs
    · exact update_self _ _ _
    · exact hrep.supremum
  case infimum =>
    simp only [hvar, hrep.infimum]
    split_ifs
    · exact update_self _ _ _
    · exact hrep.infimum
  case origins =>
    intro c hc
    simp only [hrep.origins b hb]
    exact update_origins h hrep hb hc _
  case unknown =>
    intro c hc hfin hnone
    exact (update_of_ne (hnone b hb).symm _ _).trans (hrep.unknown c hc hfin hnone)

omit h hrep in
/-- Origins are erased in the tableau as for the variable. -/
theorem eraseOrigins (hrep : s.Represents t) (h : Ordered s) (hb : s.Has b)
    (hfin : b.isInfinite = false) (kept : List Origin) :
    (s.eraseOrigins b kept).Represents (t.eraseOrigins b.toBound kept) := by
  have hupd : Represents { s with origins := update s.origins b.address kept }
      { t with origins := update t.origins b.toBound kept } := by
    refine ⟨hrep.upperbounds, hrep.lowerbounds, hrep.supremum, hrep.infimum, ?_, ?_⟩
    · exact fun c hc => update_origins h hrep hb hc kept
    · intro c hc hinf hnone
      exact (update_of_ne (hnone b hb).symm _ _).trans (hrep.unknown c hc hinf hnone)
  have hact : t.isActive b.toBound = s.isActive b := by
    rw [Bounds.isActive, hrep.origins b hb, Variable.isActive]
  have hact' : Bounds.isActive { t with origins := update t.origins b.toBound kept }
      b.toBound = Variable.isActive { s with origins := update s.origins b.address kept } b := by
    rw [Bounds.isActive, Variable.isActive, hupd.origins b hb]
  rw [Variable.eraseOrigins, Bounds.eraseOrigins]
  simp only [hact, hact']
  split_ifs with hlast
  · have hnil : kept = [] := by
      rw [Bool.and_eq_true, isActive_update, if_pos rfl, Bool.not_not, List.isEmpty_iff] at hlast
      exact hlast.2
    rw [hnil]
    exact deactivateBound h hrep hb hfin
  · exact hupd

end Represents

end Variable

/-! ## What the tableau keeps -/

/-- A strict bound is an infinitesimal stronger than its main part. -/
structure Bound.Signed (b : Bound) (l : Value ℚ) : Prop where
  upper : b.isUpperBound = true → l.deltaPart ≤ 0
  lower : b.isLowerBound = true → 0 ≤ l.deltaPart

namespace Bounds

/-- A bound of the variable `v`, active or not. -/
def Has (s : Bounds) (v : VarId) (b : Bound) : Prop := b ∈ s.upperbounds v ∨ b ∈ s.lowerbounds v

instance (s : Bounds) (v : VarId) (b : Bound) : Decidable (s.Has v b) :=
  inferInstanceAs (Decidable (_ ∨ _))

/-- The bounds are those of ordered variables, and only variables of the tableau have any. -/
structure Maintained (known : VarId → Prop) (s : Bounds) : Prop where
  variable_ordered : ∀ v, ∃ o : Variable, o.mId = v ∧ o.Ordered ∧ o.Represents s
  signed : ∀ v b, s.Has v b → ∀ l, b.limit = some l → b.Signed l
  known : ∀ v b, s.Has v b → b.isInfinite = false → known v

variable {known : VarId → Prop} {s s' : Bounds}

theorem maintained_empty : empty.Maintained known where
  variable_ordered v := ⟨Variable.new v, rfl, Variable.ordered_new v, by
    constructor
    case origins => exact (Variable.represents_new v).origins
    case unknown => exact (Variable.represents_new v).unknown
    all_goals rfl⟩
  signed v b hb l hl := by
    rcases hb with hb | hb
    all_goals
      rw [mem_singleton.mp hb] at hl
      cases hl
  known v b hb hfin := by
    rcases hb with hb | hb
    all_goals
      rw [mem_singleton.mp hb] at hfin
      cases hfin

/-- The bounds of one variable do not depend on those of the others. -/
theorem represents_congr {o : Variable} (h : o.Ordered) (hrep : o.Represents s)
    (hup : s'.upperbounds o.mId = s.upperbounds o.mId)
    (hlow : s'.lowerbounds o.mId = s.lowerbounds o.mId)
    (hsup : s'.supremum o.mId = s.supremum o.mId) (hinf : s'.infimum o.mId = s.infimum o.mId)
    (horigs : ∀ b : Bound, b.var = o.mId → s'.origins b = s.origins b) : o.Represents s' where
  upperbounds := hup.trans hrep.upperbounds
  lowerbounds := hlow.trans hrep.lowerbounds
  supremum := hsup.trans hrep.supremum
  infimum := hinf.trans hrep.infimum
  origins b hb := by
    refine (horigs _ ?_).trans (hrep.origins b hb)
    rcases hb with hb | hb
    · exact (h.upper b hb).var
    · exact (h.lower b hb).var
  unknown c hc hfin hnone := (horigs c hc).trans (hrep.unknown c hc hfin hnone)

variable {v : VarId} {b : Bound}

namespace Maintained

variable (h : s.Maintained known)

include h

/-- The parts of the bounds that other operations write. -/
theorem congr {known' : VarId → Prop} (hknown : ∀ v, known v → known' v)
    (hup : s'.upperbounds = s.upperbounds) (hlow : s'.lowerbounds = s.lowerbounds)
    (hsup : s'.supremum = s.supremum) (hinf : s'.infimum = s.infimum)
    (horigs : s'.origins = s.origins) : s'.Maintained known' where
  variable_ordered v := by
    obtain ⟨o, ho, hord, hrep⟩ := h.variable_ordered v
    exact ⟨o, ho, hord, represents_congr hord hrep (congrFun hup _)
      (congrFun hlow _) (congrFun hsup _) (congrFun hinf _) fun b _ => congrFun horigs b⟩
  signed v b hb := h.signed v b (by rwa [Has, hup, hlow] at hb)
  known v b hb hfin := hknown v (h.known v b (by rwa [Has, hup, hlow] at hb) hfin)

/-- A bound is entered for its variable. -/
theorem enters (hv : known b.var) (hb : ∀ l, b.limit = some l → b.Signed l) (henters : s.Enters b s')
    (hself : ∀ o : Variable, o.mId = b.var → o.Ordered → o.Represents s →
      ∃ o' : Variable, o'.mId = b.var ∧ o'.Ordered ∧ o'.Represents s') : s'.Maintained known := by
  have hkeeps := henters.keeps
  have hmem : ∀ w c, s'.Has w c → s.Has w c ∨ w = b.var ∧ c = b := by
    obtain ⟨-, rfl⟩ | ⟨_, rfl⟩ := henters
    · exact fun w c => .inl
    rintro w c (hc | hc)
    all_goals
      simp only at hc
      split_ifs at hc
    · exact (mem_update_insert.mp hc).imp_left .inl
    · exact .inl (.inl hc)
    · exact (mem_update_insert.mp hc).imp_left .inr
    · exact .inl (.inr hc)
  have hother : ∀ w ≠ b.var, s'.upperbounds w = s.upperbounds w ∧
      s'.lowerbounds w = s.lowerbounds w := by
    intro w hw
    obtain ⟨-, rfl⟩ | ⟨_, rfl⟩ := henters
    · exact ⟨rfl, rfl⟩
    constructor <;> simp only <;> split_ifs <;> first | rfl | exact update_of_ne hw _ _
  constructor
  case variable_ordered =>
    intro w
    obtain ⟨o, rfl, hord, hrep⟩ := h.variable_ordered w
    by_cases hw : o.mId = b.var
    · rw [hw]
      exact hself o hw hord hrep
    · obtain ⟨hup, hlow⟩ := hother o.mId hw
      exact ⟨o, rfl, hord, represents_congr hord hrep hup hlow
        (congrFun hkeeps.supremum _) (congrFun hkeeps.infimum _)
        fun c _ => congrFun hkeeps.origins c⟩
  case signed =>
    intro w c hc
    rcases hmem w c hc with hc | ⟨-, rfl⟩
    · exact h.signed w c hc
    · exact hb
  case known =>
    intro w c hc hfin
    rcases hmem w c hc with hc | ⟨rfl, -⟩
    · exact h.known w c hc hfin
    · exact hv

variable {limit : Value ℚ}

/-- The limit of a new bound is on the open side of its main part. -/
theorem addDirected (hv : known v) {upper : Bool}
    (hsigned : if upper then limit.deltaPart ≤ 0 else 0 ≤ limit.deltaPart)
    (c : LinearConstraint) : (s.addDirected upper v limit c).2.Maintained known := by
  refine h.enters hv ?_ (s.addDirected_enters upper v limit c) ?_
  · rintro l hl
    cases hl
    cases upper with
    | true => exact ⟨fun _ => hsigned, fun hlow => Bool.noConfusion hlow⟩
    | false => exact ⟨fun hup => Bool.noConfusion hup, fun _ => hsigned⟩
  · rintro o rfl ho hrep
    cases upper with
    | true => exact ⟨(o.addUpperBound limit).2, rfl, ho.addUpperBound limit,
        .addUpperBound ho hrep limit c⟩
    | false => exact ⟨(o.addLowerBound limit).2, rfl, ho.addLowerBound limit,
        .addLowerBound ho hrep limit c⟩

theorem addEqualBound (hv : known v) (hsigned : limit.deltaPart = 0)
    (c : LinearConstraint) : (s.addEqualBound v limit c).2.Maintained known := by
  refine h.enters hv ?_ (s.addEqualBound_enters v limit c) ?_
  · rintro l hl
    cases hl
    exact ⟨fun _ => hsigned.le, fun _ => hsigned.ge⟩
  · rintro o rfl ho hrep
    refine ⟨(o.addEqualBound limit).2, ?_, ho.addEqualBound limit, .addEqualBound ho hrep limit c⟩
    simp only [Variable.addEqualBound]
    split_ifs <;> rfl

/-- The object of a bound, with the variable it belongs to. -/
theorem exists_object (hb : s.Has v b) :
    b.var = v ∧ ∃ (o : Variable) (c : BoundObject), o.mId = v ∧ o.Ordered ∧ o.Represents s ∧
      o.Has c ∧ c.toBound = b := by
  obtain ⟨o, rfl, ho, hrep⟩ := h.variable_ordered v
  obtain ⟨c, hc, rfl⟩ : ∃ c, o.Has c ∧ c.toBound = b := by
    rcases hb with hb | hb
    · rw [hrep.upperbounds] at hb
      obtain ⟨c, hc, heq⟩ := mem_map.mp hb
      exact ⟨c, .inl hc, heq⟩
    · rw [hrep.lowerbounds] at hb
      obtain ⟨c, hc, heq⟩ := mem_map.mp hb
      exact ⟨c, .inr hc, heq⟩
  have hvar : c.var = o.mId := by
    rcases hc with hc | hc
    · exact (ho.upper c hc).var
    · exact (ho.lower c hc).var
  exact ⟨hvar, o, c, rfl, ho, hrep, hc, rfl⟩

/-- The supremum is the strongest active upper bound. -/
theorem supremum_le (hb : b ∈ s.upperbounds v)
    (hact : s.isActive b = true) : (s.supremum v).upperKey ≤ b.upperKey := by
  obtain ⟨o, rfl, ho, hrep⟩ := h.variable_ordered v
  rw [hrep.upperbounds] at hb
  obtain ⟨c, hc, rfl⟩ := mem_map.mp hb
  rw [isActive, hrep.origins c (.inl hc)] at hact
  rw [hrep.supremum]
  exact ho.supremum_le c hc hact

/-- The infimum is the strongest active lower bound. -/
theorem le_infimum (hb : b ∈ s.lowerbounds v)
    (hact : s.isActive b = true) : b.lowerKey ≤ (s.infimum v).lowerKey := by
  obtain ⟨o, rfl, ho, hrep⟩ := h.variable_ordered v
  rw [hrep.lowerbounds] at hb
  obtain ⟨c, hc, rfl⟩ := mem_map.mp hb
  rw [isActive, hrep.origins c (.inr hc)] at hact
  rw [hrep.infimum]
  exact ho.le_infimum c hc hact

theorem isUpperOf (hb : b ∈ s.upperbounds v) : b.IsUpperOf v := by
  obtain ⟨o, rfl, ho, hrep⟩ := h.variable_ordered v
  rw [hrep.upperbounds] at hb
  obtain ⟨c, hc, rfl⟩ := mem_map.mp hb
  exact ho.upper c hc

theorem isLowerOf (hb : b ∈ s.lowerbounds v) : b.IsLowerOf v := by
  obtain ⟨o, rfl, ho, hrep⟩ := h.variable_ordered v
  rw [hrep.lowerbounds] at hb
  obtain ⟨c, hc, rfl⟩ := mem_map.mp hb
  exact ho.lower c hc

theorem supremum_mem (v : VarId) : s.supremum v ∈ s.upperbounds v := by
  obtain ⟨o, rfl, ho, hrep⟩ := h.variable_ordered v
  rw [hrep.upperbounds, hrep.supremum]
  exact mem_map_of_mem ho.supremum_mem

theorem infimum_mem (v : VarId) : s.infimum v ∈ s.lowerbounds v := by
  obtain ⟨o, rfl, ho, hrep⟩ := h.variable_ordered v
  rw [hrep.lowerbounds, hrep.infimum]
  exact mem_map_of_mem ho.infimum_mem

/-- An equation is in both sets of its variable. -/
theorem equal_mem (hb : s.Has v b) (htype : b.type = .equal) :
    b ∈ s.upperbounds v ∧ b ∈ s.lowerbounds v := by
  obtain ⟨-, o, c, rfl, ho, hrep, hc, rfl⟩ := h.exists_object hb
  rw [hrep.upperbounds, hrep.lowerbounds]
  constructor
  · exact mem_map_of_mem (ho.mem_upper hc (by rw [Bound.isUpperBound, htype]; rfl))
  · exact mem_map_of_mem (ho.mem_lower hc (by rw [Bound.isLowerBound, htype]; rfl))

/-- A variable with an active bound that is finite has a finite supremum or infimum. -/
theorem hasBound_of_active (hb : s.Has v b) (hfin : b.isInfinite = false)
    (hact : s.isActive b = true) : s.hasBound v = true := by
  have hsome : ∃ l, b.limit = some l := by
    rw [Bound.isInfinite, Option.isNone_eq_false_iff] at hfin
    exact Option.isSome_iff_exists.mp hfin
  obtain ⟨l, hl⟩ := hsome
  rw [hasBound, Bool.not_eq_true', Bool.and_eq_false_iff]
  rcases hb with hb | hb
  · right
    have hle := h.supremum_le hb hact
    cases hlim : (s.supremum v).limit with
    | some k => simp [Bound.isInfinite, hlim]
    | none =>
      simp [Bound.upperKey, hlim, hl, Prod.Lex.toLex_le_toLex] at hle
  · left
    have hle := h.le_infimum hb hact
    cases hlim : (s.infimum v).limit with
    | some k => simp [Bound.isInfinite, hlim]
    | none =>
      simp [Bound.lowerKey, hlim, hl, Prod.Lex.toLex_le_toLex] at hle

/-- The bounds under a change of the origins of `b` and of the supremum and infimum of its
variable. -/
theorem change (hb : s.Has b.var b) (hup : s'.upperbounds = s.upperbounds)
    (hlow : s'.lowerbounds = s.lowerbounds)
    (hself : ∀ (o : Variable) (c : BoundObject), o.mId = b.var → o.Ordered → o.Represents s →
      o.Has c → c.toBound = b → ∃ o' : Variable, o'.mId = b.var ∧ o'.Ordered ∧ o'.Represents s')
    (hsup : ∀ w ≠ b.var, s'.supremum w = s.supremum w)
    (hinf : ∀ w ≠ b.var, s'.infimum w = s.infimum w)
    (horigs : ∀ c ≠ b, s'.origins c = s.origins c) : s'.Maintained known where
  variable_ordered w := by
    by_cases hw : w = b.var
    · obtain ⟨-, o, c, ho, hord, hrep, hc, heq⟩ := h.exists_object hb
      rw [hw]
      exact hself o c ho hord hrep hc heq
    · obtain ⟨o, rfl, hord, hrep⟩ := h.variable_ordered w
      refine ⟨o, rfl, hord, represents_congr hord hrep (congrFun hup _)
        (congrFun hlow _) (hsup _ hw) (hinf _ hw) fun c hc => horigs c ?_⟩
      rintro rfl
      exact hw hc.symm
  signed v c hc := h.signed v c (by rwa [Has, hup, hlow] at hc)
  known v c hc hfin := h.known v c (by rwa [Has, hup, hlow] at hc) hfin

/-- Origins are taken from a finite bound. -/
theorem eraseOrigins (hb : s.Has b.var b) (hfin : b.isInfinite = false)
    {kept : List Origin} (hkept : kept.Sublist (s.origins b)) :
    (s.eraseOrigins b kept).Maintained known := by
  refine h.change hb ?_ ?_ ?_ ?_ ?_ ?_
  · rw [Bounds.eraseOrigins]
    split_ifs <;> rfl
  · rw [Bounds.eraseOrigins]
    split_ifs <;> rfl
  · rintro o c ho hord hrep hc rfl
    have horigs := hrep.origins c hc
    refine ⟨o.eraseOrigins c kept, ?_, hord.eraseOrigins hc hfin (horigs ▸ hkept),
      hrep.eraseOrigins hord hc hfin kept⟩
    rw [Variable.eraseOrigins]
    split_ifs <;> exact ho
  · intro w hw
    rw [Bounds.eraseOrigins]
    simp only [Bounds.deactivateBound]
    split_ifs <;> first | rfl | exact update_of_ne hw _ _
  · intro w hw
    rw [Bounds.eraseOrigins]
    simp only [Bounds.deactivateBound]
    split_ifs <;> first | rfl | exact update_of_ne hw _ _
  · intro c hc
    rw [Bounds.eraseOrigins]
    split_ifs <;> exact update_of_ne hc _ _

omit h in
theorem activateBound {settings : TableauSettings} {t : Tableau} (h : t.toBounds.Maintained known)
    (hb : t.toBounds.Has b.var b) (o : Origin) :
    (t.activateBound settings b o).toBounds.Maintained known := by
  have heq := Tableau.activateBound_toBounds settings t b o
  refine h.change hb ?_ ?_ ?_ ?_ ?_ ?_
  · rw [heq]
  · rw [heq]
  · rintro v c hv hord hrep hc rfl
    refine ⟨v.activateBound c o, ?_, hord.activateBound hc o,
      Variable.Represents.activateBound hord hrep hc o⟩
    simp only [Variable.activateBound]
    split_ifs <;> exact hv
  · intro w hw
    rw [heq]
    simp only
    split_ifs
    · exact update_of_ne hw _ _
    · rfl
  · intro w hw
    rw [heq]
    simp only
    split_ifs
    · exact update_of_ne hw _ _
    · rfl
  · intro c hc
    rw [heq]
    exact update_of_ne hc _ _

end Maintained

end Bounds

end Smtrat.LRA
