import Mathlib.Data.List.Nodup
import Mathlib.Data.List.Perm.Basic
import Mathlib.Logic.Relation
import Midend.Proofs.Inlining

/-! # Class-hierarchy analysis

A hierarchy grows by classes below those it has, so superclasses never lead in a circle. The search for overrides walks
down from a class, dispatch walks up to it. They agree: what no class below declares is found from all of them where the
class itself finds it.
-/

namespace Midend

namespace Hierarchy

/-- What comes about from the core library by adding classes below those there are, and fields and methods. -/
inductive Grown : Hierarchy → Prop
  | core : Grown core
  | addClass {t : Hierarchy} (name : String) {superclass : Option ClassId} (ht : Grown t)
      (hsuper : ∀ s, superclass = some s → (t.class? s).isSome) : Grown (t.addClass name superclass).2
  | addField {t t' : Hierarchy} {c : ClassId} {name : String} {isFinal : Bool} {guarded : ClassId} {field : Field}
      (ht : Grown t) (hrun : t.addField c name isFinal guarded = .ok (field, t')) : Grown t'
  | addMethod {t t' : Hierarchy} {c : ClassId} {name : String} {kind : FunctionKind} {recognized : Recognized}
      {isStatic : Bool} {f : FunctionId} (ht : Grown t)
      (hrun : t.addMethod c name kind recognized isStatic = .ok (f, t')) : Grown t'

variable {t t' : Hierarchy} {c d s : ClassId} {name : String}

/-! ## Outlines -/

/-- The classes with their superclasses. Neither fields nor methods change it. -/
def outline (t : Hierarchy) : List (ClassId × Option ClassId) := t.classes.map fun k => (k.id, k.superclass)

def ids (t : Hierarchy) : List ClassId := t.outline.map (·.1)

theorem ids_eq : t.ids = t.classes.map (·.id) := List.map_map

theorem mem_ids_iff : c ∈ t.ids ↔ (t.class? c).isSome := by
  simp [ids, outline, class?, List.find?_isSome]

/-- Every class is above all classes that were put below it. -/
structure Forest (t : Hierarchy) : Prop where
  unique : t.ids.Nodup
  fresh : ∀ c ∈ t.ids, c.number < t.nextClass
  object : .object ∈ t.ids
  ranked : ∃ rank : ClassId → Nat, (∀ c, rank c ≤ t.outline.length) ∧
    ∀ c s, (c, some s) ∈ t.outline → s ∈ t.ids ∧ rank s < rank c

theorem Forest.congr (h : t.Forest) (houtline : t'.outline = t.outline) (hnext : t'.nextClass = t.nextClass) :
    t'.Forest := by
  have hids : t'.ids = t.ids := by rw [ids, houtline, ids]
  refine ⟨hids ▸ h.unique, ?_, hids ▸ h.object, ?_⟩
  · rw [hids, hnext]
    exact h.fresh
  · rw [hids, houtline]
    exact h.ranked

theorem outline_modifyClass {f : Class → Class} (hf : ∀ k, (f k).id = k.id ∧ (f k).superclass = k.superclass) :
    (t.modifyClass c f).outline = t.outline := by
  simp only [outline, modifyClass, List.map_map]
  refine List.map_congr_left fun k _ => ?_
  simp only [Function.comp]
  split
  · rw [(hf k).1, (hf k).2]
  · rfl

theorem outline_addMethod {kind : FunctionKind} {recognized : Recognized} {isStatic : Bool} {f : FunctionId}
    (hrun : t.addMethod c name kind recognized isStatic = .ok (f, t')) :
    t'.outline = t.outline ∧ t'.nextClass = t.nextClass := by
  unfold addMethod at hrun
  split at hrun
  · cases hrun
  · obtain ⟨-, rfl⟩ := Prod.mk.inj (Except.ok.inj hrun)
    exact ⟨outline_modifyClass fun _ => ⟨rfl, rfl⟩, rfl⟩

theorem outline_addField {isFinal : Bool} {guarded : ClassId} {field : Field}
    (hrun : t.addField c name isFinal guarded = .ok (field, t')) :
    t'.outline = t.outline ∧ t'.nextClass = t.nextClass := by
  unfold addField at hrun
  obtain ⟨⟨_, t₁⟩, hgetter, hrun⟩ := bind_eq_ok.mp hrun
  obtain ⟨houtline, hnext⟩ := outline_addMethod hgetter
  replace houtline : t₁.outline = t.outline := houtline.trans (outline_modifyClass fun _ => ⟨rfl, rfl⟩)
  dsimp only at hrun
  split at hrun
  · obtain ⟨-, rfl⟩ := Prod.mk.inj (pure_eq_ok.mp hrun)
    exact ⟨houtline, hnext⟩
  · obtain ⟨⟨_, t₂⟩, hsetter, hrun⟩ := bind_eq_ok.mp hrun
    obtain ⟨-, rfl⟩ := Prod.mk.inj (pure_eq_ok.mp hrun)
    obtain ⟨houtline', hnext'⟩ := outline_addMethod hsetter
    exact ⟨houtline'.trans houtline, hnext'.trans hnext⟩

theorem Forest.addClass (h : t.Forest) {superclass : Option ClassId}
    (hsuper : ∀ s, superclass = some s → (t.class? s).isSome) : (t.addClass name superclass).2.Forest := by
  have hids : (t.addClass name superclass).2.ids = t.ids ++ [⟨t.nextClass⟩] := by
    simp [Hierarchy.addClass, ids, outline]
  have hnew : (⟨t.nextClass⟩ : ClassId) ∉ t.ids := fun hmem => Nat.lt_irrefl _ (h.fresh _ hmem)
  have hother (c : ClassId) (hc : c ∈ t.ids) : c ≠ ⟨t.nextClass⟩ := fun heq => hnew (heq ▸ hc)
  have habove : superclass.getD .object ∈ t.ids := by
    cases superclass with
    | none => exact h.object
    | some s => exact mem_ids_iff.mpr (hsuper s rfl)
  refine ⟨?_, ?_, ?_, ?_⟩
  · rw [hids]
    exact List.nodup_append.mpr ⟨h.unique, List.nodup_singleton _, by rintro a ha b hb rfl; simp_all⟩
  · intro c hc
    rw [hids, List.mem_append, List.mem_singleton] at hc
    obtain hc | rfl := hc
    · exact Nat.lt_succ_of_lt (h.fresh c hc)
    · exact Nat.lt_succ_self _
  · rw [hids]
    exact List.mem_append_left _ h.object
  · obtain ⟨rank, hbound, hbelow⟩ := h.ranked
    have hlength : (t.addClass name superclass).2.outline.length = t.outline.length + 1 := by
      simp [Hierarchy.addClass, outline]
    refine ⟨Function.update rank ⟨t.nextClass⟩ (t.outline.length + 1), fun c => ?_, fun c s hc => ?_⟩
    · rw [hlength, Function.update_apply]
      split
      · exact Nat.le_refl _
      · exact Nat.le_succ_of_le (hbound c)
    · have hmem : (c, some s) ∈ t.outline ∨ c = ⟨t.nextClass⟩ ∧ s = superclass.getD .object := by
        simpa [Hierarchy.addClass, outline, eq_comm] using hc
      rw [hids, List.mem_append]
      obtain hold | ⟨rfl, rfl⟩ := hmem
      · obtain ⟨hs, hlt⟩ := hbelow c s hold
        have hc' : c ∈ t.ids := List.mem_map.mpr ⟨_, hold, rfl⟩
        rw [Function.update_of_ne (hother s hs), Function.update_of_ne (hother c hc')]
        exact ⟨.inl hs, hlt⟩
      · rw [Function.update_self, Function.update_of_ne (hother _ habove)]
        exact ⟨.inl habove, Nat.lt_succ_of_le (hbound _)⟩

theorem forest_core : core.Forest := by
  have hclasses : (coreClasses.foldl (fun t c => t.addCoreClass c (some .object))
    (addCoreClass {} .object none)).Forest := by
    refine ⟨by decide, by decide, by decide, fun c => if c = .object then 0 else 1, fun c => ?_, ?_⟩
    · dsimp only
      split <;> decide
    · intro c s hmem
      have hall : ∀ e ∈ (coreClasses.foldl (fun t c => t.addCoreClass c (some .object))
        (addCoreClass {} .object none)).outline,
          e.2 = none ∨ e.2 = some .object ∧ e.1 ≠ .object := by decide
      obtain hnone | ⟨hsome, hne⟩ := hall _ hmem
      · cases hnone
      · obtain rfl : s = .object := Option.some_inj.mp hsome
        exact ⟨by decide, by simp [hne]⟩
  unfold core
  generalize coreMethods = methods
  generalize coreClasses.foldl _ _ = t at hclasses
  induction methods generalizing t with
  | nil => exact hclasses
  | cons m methods ih =>
    refine ih _ ?_
    dsimp only
    split
    case h_1 heq => exact hclasses.congr (outline_addMethod heq).1 (outline_addMethod heq).2
    case h_2 => exact hclasses

theorem Grown.forest (h : t.Grown) : t.Forest := by
  induction h with
  | core => exact forest_core
  | addClass name _ hsuper ih => exact ih.addClass hsuper
  | addField _ hrun ih => exact ih.congr (outline_addField hrun).1 (outline_addField hrun).2
  | addMethod _ hrun ih => exact ih.congr (outline_addMethod hrun).1 (outline_addMethod hrun).2

/-! ## Walking up -/

def Extends (t : Hierarchy) (d c : ClassId) : Prop := (d, some c) ∈ t.outline

def Inherits (t : Hierarchy) : ClassId → ClassId → Prop := Relation.ReflTransGen t.Extends

theorem Forest.class?_eq_some (h : t.Forest) {k : Class} : t.class? c = some k ↔ k ∈ t.classes ∧ k.id = c := by
  unfold class?
  constructor
  · intro hfind
    exact ⟨List.mem_of_find?_eq_some hfind, by simpa using List.find?_some hfind⟩
  · rintro ⟨hk, rfl⟩
    have hunique := ids_eq ▸ h.unique
    cases hfind : t.classes.find? fun k' => k'.id == k.id with
    | none => simpa using List.find?_eq_none.mp hfind k hk
    | some k' =>
      have hid : k'.id = k.id := by simpa using List.find?_some hfind
      rw [List.inj_on_of_nodup_map hunique (List.mem_of_find?_eq_some hfind) hk hid]

theorem Forest.extends_iff (h : t.Forest) : t.Extends d c ↔ (t.class? d).bind (·.superclass) = some c := by
  simp only [Extends, outline, List.mem_map, Prod.mk.injEq, Option.bind_eq_some_iff, h.class?_eq_some, and_assoc]

theorem Forest.extends_unique (h : t.Forest) (hc : t.Extends d c) (hs : t.Extends d s) : c = s :=
  Option.some_inj.mp ((h.extends_iff.mp hc).symm.trans (h.extends_iff.mp hs))

theorem Inherits.rank_le {rank : ClassId → Nat} (hrank : ∀ c s, (c, some s) ∈ t.outline → s ∈ t.ids ∧ rank s < rank c)
    (h : t.Inherits d c) : rank c ≤ rank d := by
  induction h with
  | refl => exact Nat.le_refl _
  | tail _ hstep ih => exact Nat.le_trans (Nat.le_of_lt (hrank _ _ hstep).2) ih

theorem Forest.ne_of_extends (h : t.Forest) (hstep : t.Extends d s) (hs : t.Inherits s c) : d ≠ c := by
  rintro rfl
  obtain ⟨rank, -, hrank⟩ := h.ranked
  exact Nat.lt_irrefl _ (Nat.lt_of_lt_of_le (hrank _ _ hstep).2 (hs.rank_le hrank))

theorem Forest.chainUpTo_eq {rank : ClassId → Nat} (h : t.Forest)
    (hrank : ∀ c s, (c, some s) ∈ t.outline → s ∈ t.ids ∧ rank s < rank c) {n m : Nat} (hn : rank c < n)
    (hm : rank c < m) : t.chainUpTo n c = t.chainUpTo m c := by
  induction n generalizing m c with
  | zero => cases hn
  | succ n ih =>
    obtain ⟨m, rfl⟩ := Nat.exists_eq_add_one_of_ne_zero (Nat.ne_of_gt (Nat.zero_lt_of_lt hm))
    unfold chainUpTo
    split
    case h_2 => rfl
    case h_1 s hs =>
      have hlt := (hrank c s (h.extends_iff.mpr hs)).2
      rw [ih (m := m) (by omega) (by omega)]

theorem Forest.chain_eq (h : t.Forest) (c : ClassId) :
    t.chain c = c :: ((t.class? c).bind (·.superclass)).elim [] t.chain := by
  obtain ⟨rank, hbound, hrank⟩ := h.ranked
  have hlength : t.outline.length = t.classes.length := List.length_map _
  unfold chain
  rw [chainUpTo]
  split
  case h_2 hnone => rw [hnone, Option.elim_none]
  case h_1 s hs =>
    rw [hs, Option.elim_some]
    have hlt := (hrank c s (h.extends_iff.mpr hs)).2
    have hc := hbound c
    rw [h.chainUpTo_eq hrank (n := t.classes.length) (m := t.classes.length + 1) (by omega) (by omega)]

theorem Forest.chain_of_extends (h : t.Forest) (hstep : t.Extends d s) : t.chain d = d :: t.chain s := by
  rw [h.chain_eq d, h.extends_iff.mp hstep, Option.elim_some]

theorem Forest.mem_chain_iff (h : t.Forest) : c ∈ t.chain d ↔ t.Inherits d c := by
  constructor
  · obtain ⟨rank, -, hrank⟩ := h.ranked
    induction hn : rank d using Nat.strong_induction_on generalizing d with
    | _ n ih =>
      rw [h.chain_eq d, List.mem_cons]
      rintro (rfl | hmem)
      · exact .refl
      · cases hs : (t.class? d).bind (·.superclass) with
        | none => simp [hs] at hmem
        | some s =>
          rw [hs, Option.elim_some] at hmem
          have hstep := h.extends_iff.mpr hs
          exact .head hstep (ih _ (hn ▸ (hrank d s hstep).2) rfl hmem)
  · intro hd
    induction hd using Relation.ReflTransGen.head_induction_on with
    | refl =>
      rw [h.chain_eq c]
      exact List.mem_cons_self
    | head hstep _ ih =>
      rw [h.chain_of_extends hstep]
      exact List.mem_cons_of_mem _ ih

def Declares (t : Hierarchy) (d : ClassId) (name : String) : Prop := ∃ k ∈ t.classes, k.id = d ∧ (k.method? name).isSome

theorem Forest.resolve_of_extends (h : t.Forest) (hstep : t.Extends d s) (hno : ¬ t.Declares d name) :
    t.resolve d name = t.resolve s name := by
  unfold resolve ancestry
  rw [h.chain_of_extends hstep, List.filterMap_cons]
  cases hk : t.class? d with
  | none => rfl
  | some k =>
    obtain ⟨hmem, hid⟩ := h.class?_eq_some.mp hk
    have hnone : k.method? name = none := by
      by_contra hsome
      exact hno ⟨k, hmem, hid, Option.isSome_iff_ne_none.mpr hsome⟩
    rw [List.findSome?_cons, hnone]

theorem Forest.resolve_of_inherits (h : t.Forest) (hno : ∀ d, t.Inherits d c → d ≠ c → ¬ t.Declares d name)
    (hd : t.Inherits d c) : t.resolve d name = t.resolve c name := by
  induction hd using Relation.ReflTransGen.head_induction_on with
  | refl => rfl
  | head hstep hs ih =>
    rw [h.resolve_of_extends hstep (hno _ (.head hstep hs) (h.ne_of_extends hstep hs)), ih]

/-! ## Walking down -/

def below (t : Hierarchy) (c : ClassId) : List ClassId := t.ids.filter fun d => d ≠ c ∧ c ∈ t.chain d

theorem mem_directSubclasses {k : Class} : k ∈ t.directSubclasses c ↔ k ∈ t.classes ∧ k.superclass = some c := by
  simp [directSubclasses]

theorem extends_of_directSubclass {k : Class} (hk : k ∈ t.directSubclasses c) : t.Extends k.id c := by
  obtain ⟨hk, hsuper⟩ := mem_directSubclasses.mp hk
  exact List.mem_map.mpr ⟨k, hk, by rw [hsuper]⟩

theorem Forest.mem_below_iff (h : t.Forest) :
    d ∈ t.below c ↔ ∃ k ∈ t.directSubclasses c, d = k.id ∨ d ∈ t.below k.id := by
  simp only [below, List.mem_filter, decide_eq_true_eq, h.mem_chain_iff]
  constructor
  · rintro ⟨hd, hne, hinherits⟩
    obtain rfl | ⟨s, hs, hstep⟩ := hinherits.cases_tail
    · exact absurd rfl hne
    · obtain ⟨k, hk, heq⟩ := List.mem_map.mp hstep
      obtain ⟨rfl, hsuper⟩ := Prod.mk.inj heq
      refine ⟨k, mem_directSubclasses.mpr ⟨hk, hsuper⟩, or_iff_not_imp_left.mpr fun hne' => ⟨hd, hne', hs⟩⟩
  · rintro ⟨k, hk, hd⟩
    have hstep := extends_of_directSubclass hk
    obtain rfl | ⟨hd, hne, hinherits⟩ := hd
    · exact ⟨List.mem_map.mpr ⟨_, hstep, rfl⟩, h.ne_of_extends hstep .refl, .single hstep⟩
    · obtain rfl | ⟨s, hs, hrest⟩ := hinherits.cases_head
      · exact absurd rfl hne
      · exact ⟨hd, h.ne_of_extends hs (hrest.tail hstep), hinherits.tail hstep⟩

theorem Forest.below_perm (h : t.Forest) (c : ClassId) :
    (t.below c).Perm ((t.directSubclasses c).flatMap fun k => k.id :: t.below k.id) := by
  have hclasses := ids_eq ▸ h.unique
  have hfamily (k : Class) : ∀ d ∈ k.id :: t.below k.id, t.Inherits d k.id := by
    intro d hd
    obtain rfl | hd := List.mem_cons.mp hd
    · exact .refl
    · simp only [below, List.mem_filter, decide_eq_true_eq] at hd
      exact h.mem_chain_iff.mp hd.2.2
  refine (List.perm_ext_iff_of_nodup (h.unique.filter _) ?_).mpr fun d => ?_
  · refine List.nodup_flatMap.mpr ⟨fun k _ => List.nodup_cons.mpr ⟨by simp [below], h.unique.filter _⟩, ?_⟩
    have hpair : (t.directSubclasses c).Pairwise fun k k' => k.id ≠ k'.id :=
      (List.pairwise_map.mp hclasses).filter _
    refine List.Pairwise.imp_of_mem ?_ hpair
    intro k k' hk hk' hne d hd hd'
    -- The classes that one class inherits from lie on one chain, and two direct subclasses do not.
    have hup := extends_of_directSubclass hk
    have hup' := extends_of_directSubclass hk'
    have hright : Relator.RightUnique t.Extends := fun _ _ _ => h.extends_unique
    obtain hle | hle := Relation.ReflTransGen.total_of_right_unique hright (hfamily k d hd) (hfamily k' d hd')
    · obtain heq | ⟨s, hs, hrest⟩ := hle.cases_head
      · exact hne heq
      · obtain rfl := h.extends_unique hs hup
        exact h.ne_of_extends hup' hrest rfl
    · obtain heq | ⟨s, hs, hrest⟩ := hle.cases_head
      · exact hne heq.symm
      · obtain rfl := h.extends_unique hs hup'
        exact h.ne_of_extends hup hrest rfl
  · exact h.mem_below_iff.trans (by simp only [List.mem_flatMap, List.mem_cons])

/-- How many classes the search looks at from here on. -/
def pendingWork (t : Hierarchy) (pending : List ClassId) : Nat := (pending.map fun c => (t.below c).length + 1).sum

theorem Forest.pendingWork_down (h : t.Forest) {pending : List ClassId} :
    t.pendingWork ((t.directSubclasses c).map (·.id) ++ pending) + 1 = t.pendingWork (c :: pending) := by
  simp only [pendingWork, List.map_append, List.sum_append, List.map_cons, List.sum_cons, List.map_map,
    (h.below_perm c).length_eq, List.length_flatMap, List.length_cons]
  simp only [Function.comp_def]
  omega

/-- A round of the search that finds nothing: some pending class gives way to its direct subclasses. In which order the
classes are taken is open. -/
def SearchRound (t : Hierarchy) (name : String) (next pending : List ClassId) : Prop :=
  ∃ c rest, pending.Perm (c :: rest) ∧ (∀ k ∈ t.directSubclasses c, k.method? name = none) ∧
    next.Perm ((t.directSubclasses c).map (·.id) ++ rest)

theorem pendingWork_perm {pending pending' : List ClassId} (h : pending.Perm pending') :
    t.pendingWork pending = t.pendingWork pending' := (h.map _).sum_eq

theorem Forest.wellFounded_round (h : t.Forest) (name : String) : WellFounded (t.SearchRound name) := by
  refine Subrelation.wf ?_ (measure t.pendingWork).wf
  rintro next pending ⟨c, rest, hpending, -, hnext⟩
  show t.pendingWork next < t.pendingWork pending
  rw [pendingWork_perm hpending, pendingWork_perm hnext, ← h.pendingWork_down]
  exact Nat.lt_succ_self _

theorem Forest.overrideBelow_iff (h : t.Forest) {n : Nat} {pending : List ClassId} (hn : t.pendingWork pending ≤ n) :
    t.overrideBelow name n pending = true ↔ ∃ c ∈ pending, ∃ d ∈ t.below c, t.Declares d name := by
  induction n generalizing pending with
  | zero =>
    cases pending with
    | nil => simp [overrideBelow]
    | cons c pending => simp [pendingWork] at hn
  | succ n ih =>
    cases pending with
    | nil => simp [overrideBelow]
    | cons c pending =>
      have hwork : _ = t.pendingWork (c :: pending) := h.pendingWork_down
      have hsubs : ((t.directSubclasses c).any fun k => (k.method? name).isSome) = true ↔
          ∃ k ∈ t.directSubclasses c, t.Declares k.id name := by
        rw [List.any_eq_true]
        refine exists_congr fun k => and_congr_right fun hk => ⟨fun hsome => ?_, ?_⟩
        · exact ⟨k, (mem_directSubclasses.mp hk).1, rfl, hsome⟩
        · rintro ⟨k', hk', hid, hsome⟩
          have h₁ := h.class?_eq_some.mpr ⟨hk', hid⟩
          have h₂ := h.class?_eq_some.mpr ⟨(mem_directSubclasses.mp hk).1, rfl⟩
          rwa [Option.some_inj.mp (h₁.symm.trans h₂)] at hsome
      rw [overrideBelow, Bool.or_eq_true, hsubs, ih (by omega), List.exists_mem_cons_iff]
      simp only [h.mem_below_iff (c := c), List.mem_append, List.mem_map]
      constructor
      · rintro (⟨k, hk, hdeclares⟩ | ⟨_, ⟨k, hk, rfl⟩ | hpending, d, hd, hdeclares⟩)
        · exact .inl ⟨k.id, ⟨k, hk, .inl rfl⟩, hdeclares⟩
        · exact .inl ⟨d, ⟨k, hk, .inr hd⟩, hdeclares⟩
        · exact .inr ⟨_, hpending, d, hd, hdeclares⟩
      · rintro (⟨d, ⟨k, hk, rfl | hd⟩, hdeclares⟩ | ⟨c', hpending, d, hd, hdeclares⟩)
        · exact .inl ⟨k, hk, hdeclares⟩
        · exact .inr ⟨k.id, .inl ⟨k, hk, rfl⟩, d, hd, hdeclares⟩
        · exact .inr ⟨c', .inr hpending, d, hd, hdeclares⟩

theorem Forest.hasOverride_iff (h : t.Forest) :
    t.hasOverride c name = true ↔ ∃ d, d ≠ c ∧ t.Inherits d c ∧ t.Declares d name := by
  have hwork : t.pendingWork [c] ≤ t.classes.length + 1 := by
    have hlength : (t.below c).length ≤ t.ids.length := List.length_filter_le _ _
    simp only [ids, outline, List.length_map] at hlength
    simpa [pendingWork] using hlength
  unfold hasOverride
  rw [h.overrideBelow_iff hwork]
  simp only [List.mem_singleton, exists_eq_left, below, List.mem_filter, decide_eq_true_eq, h.mem_chain_iff, and_assoc]
  refine exists_congr fun d => ⟨fun ⟨_, hd⟩ => hd, fun hd => ⟨?_, hd⟩⟩
  obtain ⟨-, -, k, hk, rfl, -⟩ := hd
  exact List.mem_map.mpr ⟨_, List.mem_map.mpr ⟨k, hk, rfl⟩, rfl⟩

/-! ## Calls without a receiver check -/

/-- A check is left out only for the receiver of a method of a class below which nothing overrides the selector. -/
theorem owner_of_unneeded {ctx : Context} {site : Calls.Site} {g g' : FlowGraph}
    (hrun : (Calls.needsClassCheck ctx site).run g = .ok (false, g')) :
    ∃ owner, g.owner = some owner ∧ ctx.hierarchy.hasOverride owner site.selector = false := by
  have hleads : Leads True g (Calls.needsClassCheck ctx site) fun needed _ => needed = false →
      ∃ owner, g.owner = some owner ∧ ctx.hierarchy.hasOverride owner site.selector = false := by
    unfold Calls.needsClassCheck
    split
    · rintro ⟨⟩
    · rw [Leads.bind_iff]
      refine Calls.leads_argumentValue.mono ?_
      rintro v _ ⟨rfl, -⟩
      rw [Leads.bind_iff, Leads.get_iff, Leads.bind_iff, Leads.lift_iff]
      refine Yields.of_ok fun d _ => ?_
      split
      case h_1 howner _ => exact fun hno => ⟨_, howner, hno⟩
      case h_2 => rintro ⟨⟩
  exact hleads.post_of_ok hrun rfl

/-- The search for overrides ends, in whatever order it takes the classes, and tells whether a class below declares the
method. If none does, dispatch goes from every class below where it goes from the class itself: a call on the receiver
of a method that is left unchecked has one target. -/
theorem hasOverride_exact (h : t.Grown) :
    (∀ name, WellFounded (t.SearchRound name)) ∧
    (∀ c name, t.hasOverride c name = true ↔
      ∃ k ∈ t.classes, k.id ≠ c ∧ c ∈ t.chain k.id ∧ (k.method? name).isSome) ∧
    (∀ c name, t.hasOverride c name = false → ∀ d, c ∈ t.chain d → t.resolve d name = t.resolve c name) ∧
    ∀ (ctx : Context) (site : Calls.Site) (g g' : FlowGraph), ctx.hierarchy = t →
      (Calls.needsClassCheck ctx site).run g = .ok (false, g') → ∃ owner, g.owner = some owner ∧
        ∀ d, owner ∈ t.chain d → t.resolve d site.selector = t.resolve owner site.selector := by
  have hforest := h.forest
  have hresolve (c : ClassId) (name : String) (hno : t.hasOverride c name = false) (d : ClassId) (hd : c ∈ t.chain d) :
      t.resolve d name = t.resolve c name := by
    refine hforest.resolve_of_inherits (fun e he hne hdeclares => ?_) (hforest.mem_chain_iff.mp hd)
    rw [hforest.hasOverride_iff.mpr ⟨e, hne, he, hdeclares⟩] at hno
    cases hno
  refine ⟨hforest.wellFounded_round, fun c name => ?_, hresolve, ?_⟩
  · rw [hforest.hasOverride_iff]
    constructor
    · rintro ⟨_, hne, hinherits, k, hk, rfl, hsome⟩
      exact ⟨k, hk, hne, hforest.mem_chain_iff.mpr hinherits, hsome⟩
    · rintro ⟨k, hk, hne, hmem, hsome⟩
      exact ⟨k.id, hne, hforest.mem_chain_iff.mp hmem, k, hk, rfl, hsome⟩
  · rintro ctx site g g' rfl hrun
    obtain ⟨owner, howner, hno⟩ := owner_of_unneeded hrun
    exact ⟨owner, howner, hresolve owner site.selector hno⟩

def threeClasses : Hierarchy := (((core.addClass "A" none).2.addClass "B" (some ⟨64⟩)).2.addClass "C" (some ⟨65⟩)).2

def lastDeclares : Hierarchy :=
  match threeClasses.addMethod ⟨66⟩ "foo" .regular .unknown false with
  | .ok (_, t) => t
  | .error _ => threeClasses

theorem grown_lastDeclares : lastDeclares.Grown := by
  have hA : (core.addClass "A" none).2.Grown := .addClass "A" .core (by rintro s ⟨⟩)
  have hB : ((core.addClass "A" none).2.addClass "B" (some ⟨64⟩)).2.Grown :=
    .addClass "B" hA (by rintro s ⟨⟩; decide +kernel)
  have hC : threeClasses.Grown := .addClass "C" hB (by rintro s ⟨⟩; decide +kernel)
  unfold lastDeclares
  split
  case h_1 hrun => exact .addMethod hC hrun
  case h_2 => exact hC

/-- The method overrides one of the first class, and nothing overrides it. -/
theorem lastDeclares_overrides : lastDeclares.Grown ∧
    (∃ k ∈ lastDeclares.classes, k.id ≠ ⟨64⟩ ∧ ⟨64⟩ ∈ lastDeclares.chain k.id ∧ (k.method? "foo").isSome) ∧
    lastDeclares.hasOverride ⟨66⟩ "foo" = false ∧
    ∀ d, ⟨66⟩ ∈ lastDeclares.chain d → lastDeclares.resolve d "foo" = lastDeclares.resolve ⟨66⟩ "foo" := by
  obtain ⟨-, hiff, hresolve, -⟩ := hasOverride_exact grown_lastDeclares
  have hfound : lastDeclares.hasOverride ⟨64⟩ "foo" = true := by decide +kernel
  have hnone : lastDeclares.hasOverride ⟨66⟩ "foo" = false := by decide +kernel
  exact ⟨grown_lastDeclares, (hiff ⟨64⟩ "foo").mp hfound, hnone, hresolve ⟨66⟩ "foo" hnone⟩

end Hierarchy

end Midend
