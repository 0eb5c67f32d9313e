import Mathlib.Data.List.Perm.Subperm
import Midend.Proofs.Hierarchy

/-! # The layout of fields

A field is put behind the fields that its class has at that time, those of the superclasses included. A subclass may
have fields of its own by then. The next field of the class above gets the place of one of these, and two fields of an
object share it for good.
-/

namespace Midend

namespace Hierarchy

variable {t t' : Hierarchy} {c d s : ClassId} {name : String} {isFinal : Bool} {guarded : ClassId} {field : Field}

def ownFields (t : Hierarchy) (c : ClassId) : List Field := ((t.class? c).map (·.fields)).getD []

/-- The class directly above a class, if there is one. -/
def superclass? (t : Hierarchy) (c : ClassId) : Option ClassId := (t.class? c).bind (·.superclass)

/-- The fields of the instances of a class: its own and those of its superclasses. -/
def fieldsOf (t : Hierarchy) (c : ClassId) : List Field := (t.ancestry c).flatMap (·.fields)

/-- No two fields of an instance have the same offset. -/
def FieldsApart (t : Hierarchy) : Prop := ∀ c, (t.fieldsOf c).Pairwise fun f g => f.offset ≠ g.offset

theorem fieldsOf_eq (t : Hierarchy) (c : ClassId) : t.fieldsOf c = (t.chain c).flatMap t.ownFields := by
  unfold fieldsOf ancestry
  induction t.chain c with
  | nil => rfl
  | cons d ds ih =>
    rw [List.flatMap_cons, ← ih, ownFields, List.filterMap_cons]
    cases t.class? d <;> rfl

theorem fieldCount_eq (t : Hierarchy) (c : ClassId) : t.fieldCount c = (t.fieldsOf c).length := by
  have hfold (ks : List Class) (n : Nat) :
      ks.foldl (fun n k => n + k.fields.length) n = n + (ks.flatMap (·.fields)).length := by
    induction ks generalizing n with
    | nil => rfl
    | cons k ks ih => rw [List.foldl_cons, ih, List.flatMap_cons, List.length_append, Nat.add_assoc]
  rw [fieldCount, hfold, Nat.zero_add, fieldsOf]

/-! ## Fields along a chain -/

theorem Forest.fieldsOf_of_extends (h : t.Forest) (hstep : t.Extends d s) :
    t.fieldsOf d = t.ownFields d ++ t.fieldsOf s := by
  rw [fieldsOf_eq, fieldsOf_eq, h.chain_of_extends hstep, List.flatMap_cons]

theorem Forest.fieldsOf_cons (h : t.Forest) (hchain : ∀ d, t'.chain d = t.chain d) (d : ClassId) :
    t'.fieldsOf d = t'.ownFields d ++ (t.superclass? d).elim [] t'.fieldsOf := by
  rw [fieldsOf_eq, hchain, h.chain_eq, List.flatMap_cons, superclass?]
  cases (t.class? d).bind (·.superclass) with
  | none => rfl
  | some s => rw [Option.elim_some, Option.elim_some, fieldsOf_eq, hchain]

theorem Forest.fieldsOf_suffix (h : t.Forest) (hd : t.Inherits d c) : t.fieldsOf c <:+ t.fieldsOf d := by
  induction hd using Relation.ReflTransGen.head_induction_on with
  | refl => exact List.suffix_rfl
  | head hstep _ ih =>
    rw [h.fieldsOf_of_extends hstep]
    exact ih.trans (List.suffix_append _ _)

theorem Forest.fieldCount_lt (h : t.Forest) (hd : t.Inherits d c) (hne : d ≠ c) (hown : t.ownFields d ≠ []) :
    t.fieldCount c < t.fieldCount d := by
  obtain rfl | ⟨s, hstep, hs⟩ := hd.cases_head
  · exact absurd rfl hne
  have hle := (h.fieldsOf_suffix hs).length_le
  have hpos := List.length_pos_iff.mpr hown
  rw [fieldCount_eq, fieldCount_eq, h.fieldsOf_of_extends hstep, List.length_append]
  omega

theorem Forest.fieldsOf_eq_of_inherits (h : t.Forest) (hd : t.Inherits d c)
    (hnone : ∀ e, t.Inherits e c → e ≠ c → t.ownFields e = []) : t.fieldsOf d = t.fieldsOf c := by
  induction hd using Relation.ReflTransGen.head_induction_on with
  | refl => rfl
  | head hstep hs ih =>
    rw [h.fieldsOf_of_extends hstep, hnone _ (.head hstep hs) (h.ne_of_extends hstep hs), List.nil_append, ih]

/-! ## What additions change -/

theorem class?_modifyClass {f : Class → Class} (hid : ∀ k, (f k).id = k.id) (d : ClassId) :
    (t.modifyClass c f).class? d = (t.class? d).map fun k => if k.id = c then f k else k := by
  unfold class? modifyClass
  dsimp only
  rw [List.find?_map]
  congr 2
  funext k
  simp only [Function.comp]
  split
  · rw [hid]
  · rfl

theorem superclass?_modifyClass {f : Class → Class} (hf : ∀ k, (f k).id = k.id ∧ (f k).superclass = k.superclass) :
    (t.modifyClass c f).superclass? d = t.superclass? d := by
  unfold superclass?
  rw [class?_modifyClass fun k => (hf k).1]
  cases t.class? d with
  | none => rfl
  | some k =>
    rw [Option.map_some, Option.bind_some, Option.bind_some]
    split
    · exact (hf k).2
    · rfl

theorem ownFields_modifyClass {f : Class → Class} {g : List Field → List Field}
    (hf : ∀ k, (f k).id = k.id ∧ (f k).fields = g k.fields) :
    (t.modifyClass c f).ownFields d = if d = c ∧ (t.class? d).isSome then g (t.ownFields d) else t.ownFields d := by
  unfold ownFields
  rw [class?_modifyClass fun k => (hf k).1]
  cases hd : t.class? d with
  | none => simp
  | some k =>
    have hid : k.id = d := by simpa using List.find?_some hd
    subst hid
    simp only [Option.map_some, Option.getD_some, Option.isSome_some, and_true]
    split
    · exact (hf k).2
    · rfl

theorem chain_congr (hsuper : ∀ d, t'.superclass? d = t.superclass? d) (hlength : t'.classes.length = t.classes.length)
    (c : ClassId) : t'.chain c = t.chain c := by
  have hupTo (n : Nat) (c : ClassId) : t'.chainUpTo n c = t.chainUpTo n c := by
    induction n generalizing c with
    | zero => rfl
    | succ n ih =>
      have hc : (t'.class? c).bind (·.superclass) = (t.class? c).bind (·.superclass) := hsuper c
      unfold chainUpTo
      rw [hc]
      split
      · rw [ih]
      · rfl
  rw [chain, chain, hlength, hupTo]

theorem length_of_outline (h : t'.outline = t.outline) : t'.classes.length = t.classes.length := by
  simpa [outline] using congrArg List.length h

theorem addMethod_frame {kind : FunctionKind} {recognized : Recognized} {isStatic : Bool} {f : FunctionId}
    (hrun : t.addMethod c name kind recognized isStatic = .ok (f, t')) :
    (t.class? c).isSome ∧ (∀ d, t'.superclass? d = t.superclass? d) ∧ ∀ d, t'.ownFields d = t.ownFields d := by
  unfold addMethod at hrun
  split at hrun
  · cases hrun
  case h_2 k hk =>
    obtain ⟨-, rfl⟩ := Prod.mk.inj (Except.ok.inj hrun)
    refine ⟨hk ▸ rfl, fun d => superclass?_modifyClass fun _ => ⟨rfl, rfl⟩, fun d => ?_⟩
    exact (ownFields_modifyClass (g := id) (by exact fun _ => ⟨rfl, rfl⟩)).trans (ite_self _)

/-- What is known of a field that was added to a class. -/
structure Added (t : Hierarchy) (c : ClassId) (field : Field) (t' : Hierarchy) : Prop where
  present : (t.class? c).isSome
  offset : field.offset = headerSize + 8 * t.fieldCount c
  chain : ∀ d, t'.chain d = t.chain d
  own : ∀ d, t'.ownFields d = if d = c then t.ownFields d ++ [field] else t.ownFields d

theorem added_addField (hrun : t.addField c name isFinal guarded = .ok (field, t')) : t.Added c field t' := by
  have hlength := length_of_outline (outline_addField hrun).1
  unfold addField at hrun
  obtain ⟨⟨_, t₁⟩, hgetter, hrun⟩ := bind_eq_ok.mp hrun
  set new : Field := { name, offset := headerSize + 8 * t.fieldCount c, isFinal, guarded }
  set t₀ := t.modifyClass c fun k => { k with fields := k.fields ++ [new] }
  obtain ⟨hpresent, hsuper₁, hown₁⟩ := addMethod_frame hgetter
  have hend : field = new ∧ (∀ d, t'.superclass? d = t₁.superclass? d) ∧ ∀ d, t'.ownFields d = t₁.ownFields d := by
    dsimp only at hrun
    split at hrun
    · obtain ⟨rfl, rfl⟩ := Prod.mk.inj (pure_eq_ok.mp hrun)
      exact ⟨rfl, fun _ => rfl, fun _ => rfl⟩
    · obtain ⟨⟨_, t₂⟩, hsetter, hrun⟩ := bind_eq_ok.mp hrun
      obtain ⟨rfl, rfl⟩ := Prod.mk.inj (pure_eq_ok.mp hrun)
      exact ⟨rfl, (addMethod_frame hsetter).2⟩
  obtain ⟨rfl, hsuper₂, hown₂⟩ := hend
  have hclass : (t.class? c).isSome := by
    rwa [class?_modifyClass (by exact fun _ => rfl), Option.isSome_map] at hpresent
  have hsuper₀ (d : ClassId) : t₀.superclass? d = t.superclass? d := superclass?_modifyClass fun _ => ⟨rfl, rfl⟩
  refine ⟨hclass, rfl, chain_congr (fun d => by rw [hsuper₂, hsuper₁, hsuper₀]) hlength, fun d => ?_⟩
  have hown₀ := ownFields_modifyClass (t := t) (c := c) (d := d) (f := fun k => { k with fields := k.fields ++ [new] })
    (g := fun fs => fs ++ [new]) fun _ => ⟨rfl, rfl⟩
  rw [hown₂, hown₁, hown₀]
  by_cases hd : d = c
  · subst hd
    rw [if_pos ⟨rfl, hclass⟩, if_pos rfl]
  · rw [if_neg fun h => hd h.1, if_neg hd]

theorem Forest.class?_next (h : t.Forest) : t.class? ⟨t.nextClass⟩ = none := by
  rw [← Option.not_isSome_iff_eq_none, ← mem_ids_iff]
  exact fun hmem => Nat.lt_irrefl _ (h.fresh _ hmem)

theorem Forest.fieldsOf_next (h : t.Forest) : t.fieldsOf ⟨t.nextClass⟩ = [] := by
  rw [h.fieldsOf_cons fun _ => rfl, ownFields, superclass?, h.class?_next]
  rfl

theorem addClass_frame (h : t.Forest) (name : String) (superclass : Option ClassId) (d : ClassId) :
    (t.addClass name superclass).2.superclass? d =
      (if d = ⟨t.nextClass⟩ then some (superclass.getD .object) else t.superclass? d) ∧
    (t.addClass name superclass).2.ownFields d = t.ownFields d := by
  have hfind : (t.addClass name superclass).2.class? d = (t.class? d).or
      (if d = ⟨t.nextClass⟩ then some { id := d, name, superclass := some (superclass.getD .object) } else none) := by
    unfold class? addClass
    dsimp only
    rw [List.find?_append]
    congr 1
    by_cases hd : d = ⟨t.nextClass⟩
    · subst hd
      simp
    · rw [if_neg hd, List.find?_cons_of_neg (by simpa using Ne.symm hd), List.find?_nil]
  unfold superclass? ownFields
  rw [hfind]
  by_cases hd : d = ⟨t.nextClass⟩
  · subst hd
    rw [h.class?_next, if_pos rfl, if_pos rfl]
    exact ⟨rfl, rfl⟩
  · rw [if_neg hd, if_neg hd, Option.or_none]
    exact ⟨rfl, rfl⟩

theorem fieldsOf_addClass (h : t.Forest) (name : String) {superclass : Option ClassId}
    (hsuper : ∀ s, superclass = some s → (t.class? s).isSome) (d : ClassId) :
    (t.addClass name superclass).2.fieldsOf d =
      if d = ⟨t.nextClass⟩ then t.fieldsOf (superclass.getD .object) else t.fieldsOf d := by
  have h' : (t.addClass name superclass).2.Forest := h.addClass hsuper
  have hfresh (c : ClassId) (hc : c ∈ t.ids) : c ≠ ⟨t.nextClass⟩ := by
    rintro rfl
    exact Nat.lt_irrefl _ (h.fresh _ hc)
  have hold (d : ClassId) (hd : d ≠ ⟨t.nextClass⟩) : (t.addClass name superclass).2.fieldsOf d = t.fieldsOf d := by
    obtain ⟨rank, -, hrank⟩ := h.ranked
    induction hn : rank d using Nat.strong_induction_on generalizing d with
    | _ n ih =>
      obtain ⟨habove, hown⟩ := addClass_frame h name superclass d
      rw [h'.fieldsOf_cons fun _ => rfl, h.fieldsOf_cons fun _ => rfl, hown, habove, if_neg hd]
      cases hs : t.superclass? d with
      | none => rfl
      | some s =>
        obtain ⟨hmem, hlt⟩ := hrank d s (h.extends_iff.mpr hs)
        rw [Option.elim_some, Option.elim_some, ih _ (hn ▸ hlt) s (hfresh s hmem) rfl]
  split
  case isFalse hd => exact hold d hd
  case isTrue hd =>
    subst hd
    obtain ⟨habove, hown⟩ := addClass_frame h name superclass ⟨t.nextClass⟩
    have hnone : t.ownFields ⟨t.nextClass⟩ = [] := by rw [ownFields, h.class?_next, Option.map_none, Option.getD_none]
    rw [h'.fieldsOf_cons fun _ => rfl, hown, hnone, habove, if_pos rfl, Option.elim_some, List.nil_append]
    refine hold _ (hfresh _ ?_)
    cases superclass with
    | none => exact h.object
    | some s => exact mem_ids_iff.mpr (hsuper s rfl)

namespace Added

theorem fieldsOf_of_not (h : t.Forest) (hf : t.Added c field t') (hd : ¬ t.Inherits d c) :
    t'.fieldsOf d = t.fieldsOf d := by
  rw [fieldsOf_eq, fieldsOf_eq, hf.chain]
  refine List.flatMap_congr fun e he => ?_
  have hne : e ≠ c := by
    rintro rfl
    exact hd (h.mem_chain_iff.mp he)
  rw [hf.own, if_neg hne]

theorem fieldsOf_perm (h : t.Forest) (hf : t.Added c field t') (hd : t.Inherits d c) :
    (t'.fieldsOf d).Perm (field :: t.fieldsOf d) := by
  have hcons := h.fieldsOf_cons hf.chain
  induction hd using Relation.ReflTransGen.head_induction_on with
  | refl =>
    have habove : (t.superclass? c).elim [] t'.fieldsOf = (t.superclass? c).elim [] t.fieldsOf := by
      cases hs : t.superclass? c with
      | none => rfl
      | some s => exact hf.fieldsOf_of_not h fun hinherits => h.ne_of_extends (h.extends_iff.mpr hs) hinherits rfl
    rw [hcons, hf.own, if_pos rfl, habove, h.fieldsOf_cons (fun _ => rfl) c, List.append_assoc, List.singleton_append]
    exact List.perm_middle
  | head hstep hs ih =>
    rw [hcons, hf.own, if_neg (h.ne_of_extends hstep hs), h.fieldsOf_of_extends hstep,
      show t.superclass? _ = some _ from h.extends_iff.mp hstep]
    exact (ih.append_left _).trans List.perm_middle

end Added

/-! ## Places of fields -/

/-- Fields have places behind the header, and there are no more places than fields. -/
def Slotted (t : Hierarchy) : Prop :=
  ∀ d, ∀ f ∈ t.fieldsOf d, ∃ k < t.fieldCount d, f.offset = headerSize + 8 * k

theorem Slotted.exists_field (h : t.Slotted) (happart : t.FieldsApart) {k : Nat} (hk : k < t.fieldCount d) :
    ∃ f ∈ t.fieldsOf d, f.offset = headerSize + 8 * k := by
  set places := (List.range (t.fieldCount d)).map fun k => headerSize + 8 * k
  have hnodup : ((t.fieldsOf d).map (·.offset)).Nodup := List.pairwise_map.mpr (happart d)
  have hsub : (t.fieldsOf d).map (·.offset) ⊆ places := by
    intro o ho
    obtain ⟨f, hf, rfl⟩ := List.mem_map.mp ho
    obtain ⟨k, hk, hoffset⟩ := h d f hf
    exact List.mem_map.mpr ⟨k, List.mem_range.mpr hk, hoffset.symm⟩
  have hperm := (List.subperm_of_subset hnodup hsub).perm_of_length_le (by simp [places, fieldCount_eq])
  exact List.mem_map.mp (hperm.mem_iff.mpr (List.mem_map.mpr ⟨k, List.mem_range.mpr hk, rfl⟩))

theorem Slotted.added (h : t.Forest) (hslots : t.Slotted) (hf : t.Added c field t') : t'.Slotted := by
  intro d f hmem
  by_cases hd : t.Inherits d c
  · have hperm := hf.fieldsOf_perm h hd
    have hcount : t'.fieldCount d = t.fieldCount d + 1 := by
      rw [fieldCount_eq, fieldCount_eq, hperm.length_eq, List.length_cons]
    obtain rfl | hold := List.mem_cons.mp (hperm.mem_iff.mp hmem)
    · have hle := (h.fieldsOf_suffix hd).length_le
      rw [← fieldCount_eq, ← fieldCount_eq] at hle
      exact ⟨t.fieldCount c, by omega, hf.offset⟩
    · obtain ⟨k, hk, hoffset⟩ := hslots d f hold
      exact ⟨k, by omega, hoffset⟩
  · have hsame := hf.fieldsOf_of_not h hd
    rw [hsame] at hmem
    obtain ⟨k, hk, hoffset⟩ := hslots d f hmem
    exact ⟨k, by rwa [fieldCount_eq, hsame, ← fieldCount_eq], hoffset⟩

theorem Added.apart_iff (h : t.Forest) (hslots : t.Slotted) (hf : t.Added c field t') :
    t'.FieldsApart ↔ t.FieldsApart ∧ ∀ d, t.Inherits d c → d ≠ c → t.ownFields d = [] := by
  have hpairwise {d : ClassId} (hd : t.Inherits d c) : ((t'.fieldsOf d).Pairwise fun f g => f.offset ≠ g.offset) ↔
      (∀ f ∈ t.fieldsOf d, field.offset ≠ f.offset) ∧ (t.fieldsOf d).Pairwise fun f g => f.offset ≠ g.offset := by
    rw [(hf.fieldsOf_perm h hd).pairwise_iff (fun h => Ne.symm h), List.pairwise_cons]
  constructor
  · intro happart'
    have happart : t.FieldsApart := by
      intro d
      by_cases hd : t.Inherits d c
      · exact ((hpairwise hd).mp (happart' d)).2
      · exact hf.fieldsOf_of_not h hd ▸ happart' d
    refine ⟨happart, fun d hd hne => ?_⟩
    by_contra hown
    -- The places of the instances of `d` are all taken, and the new field is given one of them.
    obtain ⟨f, hmem, hoffset⟩ := hslots.exists_field happart (h.fieldCount_lt hd hne hown)
    exact ((hpairwise hd).mp (happart' d)).1 f hmem (hf.offset.trans hoffset.symm)
  · rintro ⟨happart, hnone⟩ d
    by_cases hd : t.Inherits d c
    · refine (hpairwise hd).mpr ⟨fun f hmem hsame => ?_, happart d⟩
      rw [h.fieldsOf_eq_of_inherits hd hnone] at hmem
      obtain ⟨k, hk, hoffset⟩ := hslots c f hmem
      have hfield := hf.offset
      omega
    · exact hf.fieldsOf_of_not h hd ▸ happart d

/-! ## Building -/

inductive Addition where
  | cls (name : String) (superclass : Option ClassId)
  | field (c : ClassId) (name : String) (isFinal : Bool) (guarded : ClassId)
  | method (c : ClassId) (name : String) (kind : FunctionKind) (recognized : Recognized) (isStatic : Bool)

namespace Addition

/-- The step is made. A superclass has to be there. -/
def run (t : Hierarchy) : Addition → Except Fault Hierarchy
  | .cls name superclass =>
    if superclass.all fun s => (t.class? s).isSome then .ok (t.addClass name superclass).2 else .error .missingClass
  | .field c name isFinal guarded => do return (← t.addField c name isFinal guarded).2
  | .method c name kind recognized isStatic => do return (← t.addMethod c name kind recognized isStatic).2

/-- A field is added to a class, and some class below has fields already. -/
def Late (t : Hierarchy) : Addition → Prop
  | .field c _ _ _ => ∃ k ∈ t.classes, k.id ≠ c ∧ c ∈ t.chain k.id ∧ k.fields ≠ []
  | _ => False

instance (t : Hierarchy) : DecidablePred (Late t)
  | .field .. => inferInstanceAs (Decidable (∃ k ∈ t.classes, _))
  | .cls .. | .method .. => inferInstanceAs (Decidable False)

end Addition

def extend (t : Hierarchy) (as : List Addition) : Except Fault Hierarchy := as.foldlM Addition.run t

def Orderly (t : Hierarchy) : List Addition → Prop
  | [] => True
  | a :: as => ¬ a.Late t ∧ ∀ t', a.run t = .ok t' → t'.Orderly as

instance Orderly.decidable : (t : Hierarchy) → (as : List Addition) → Decidable (t.Orderly as)
  | _, [] => inferInstanceAs (Decidable True)
  | t, a :: as =>
    match hrun : a.run t with
    | .ok t' =>
      have := Orderly.decidable t' as
      decidable_of_iff (¬ a.Late t ∧ t'.Orderly as) (by simp [Orderly, hrun])
    | .error _ => decidable_of_iff (¬ a.Late t) (by simp [Orderly, hrun])

theorem Forest.late_iff (h : t.Forest) : (Addition.field c name isFinal guarded).Late t ↔
    ∃ d, t.Inherits d c ∧ d ≠ c ∧ t.ownFields d ≠ [] := by
  constructor
  · rintro ⟨k, hk, hne, hmem, hfields⟩
    refine ⟨k.id, h.mem_chain_iff.mp hmem, hne, ?_⟩
    rwa [ownFields, h.class?_eq_some.mpr ⟨hk, rfl⟩]
  · rintro ⟨d, hd, hne, hown⟩
    unfold ownFields at hown
    cases hk : t.class? d with
    | none => simp [hk] at hown
    | some k =>
      obtain ⟨hmem, rfl⟩ := h.class?_eq_some.mp hk
      exact ⟨k, hmem, hne, h.mem_chain_iff.mpr hd, by simpa [hk] using hown⟩

theorem Slotted.congr (h : t.Slotted) (hfields : ∀ d, t'.fieldsOf d = t.fieldsOf d) : t'.Slotted := by
  intro d f hmem
  rw [fieldCount_eq, hfields, ← fieldCount_eq]
  exact h d f (hfields d ▸ hmem)

theorem FieldsApart.congr (h : t.FieldsApart) (hfields : ∀ d, t'.fieldsOf d = t.fieldsOf d) : t'.FieldsApart :=
  fun d => hfields d ▸ h d

theorem Addition.run_layout {a : Addition} (h : t.Forest) (hslots : t.Slotted) (hrun : a.run t = .ok t') :
    t'.Forest ∧ t'.Slotted ∧ (t'.FieldsApart ↔ t.FieldsApart ∧ ¬ a.Late t) := by
  cases a with
  | cls name superclass =>
    obtain ⟨hall, hrun⟩ | ⟨-, hrun⟩ := ite_eq_ok.mp hrun
    · obtain rfl := Except.ok.inj hrun
      have hsuper (s : ClassId) (hs : superclass = some s) : (t.class? s).isSome := by simpa [hs] using hall
      have hfields := fieldsOf_addClass h name hsuper
      have hback (d : ClassId) : ∃ e, t.fieldsOf e = (t.addClass name superclass).2.fieldsOf d := by
        rw [hfields]
        split
        · exact ⟨_, rfl⟩
        · exact ⟨_, rfl⟩
      refine ⟨h.addClass hsuper, fun d f hmem => ?_, ?_⟩
      · obtain ⟨e, he⟩ := hback d
        rw [fieldCount_eq, ← he, ← fieldCount_eq]
        exact hslots e f (he ▸ hmem)
      · simp only [Late, not_false_eq_true, and_true]
        refine ⟨fun happart d => ?_, fun happart d => ?_⟩
        · by_cases hd : d = ⟨t.nextClass⟩
          · rw [hd, h.fieldsOf_next]
            exact .nil
          · have hsame := hfields d
            rw [if_neg hd] at hsame
            exact hsame ▸ happart d
        · obtain ⟨e, he⟩ := hback d
          exact he ▸ happart e
    · cases hrun
  | field c name isFinal guarded =>
    obtain ⟨⟨field, t''⟩, hadd, hrest⟩ := bind_eq_ok.mp hrun
    obtain rfl := pure_eq_ok.mp hrest
    obtain ⟨houtline, hnext⟩ := outline_addField hadd
    have hf := added_addField hadd
    refine ⟨h.congr houtline hnext, hslots.added h hf, (hf.apart_iff h hslots).trans ?_⟩
    rw [h.late_iff]
    push Not
    rfl
  | method c name kind recognized isStatic =>
    obtain ⟨⟨f, t''⟩, hadd, hrest⟩ := bind_eq_ok.mp hrun
    obtain rfl := pure_eq_ok.mp hrest
    obtain ⟨houtline, hnext⟩ := outline_addMethod hadd
    obtain ⟨-, hsuper, hown⟩ := addMethod_frame hadd
    have hfields (d : ClassId) : t''.fieldsOf d = t.fieldsOf d := by
      rw [fieldsOf_eq, fieldsOf_eq, chain_congr hsuper (length_of_outline houtline), funext hown]
    refine ⟨h.congr houtline hnext, hslots.congr hfields, ?_⟩
    simp only [Late, not_false_eq_true, and_true]
    exact ⟨fun happart => happart.congr fun d => (hfields d).symm, fun happart => happart.congr hfields⟩

theorem fieldsOf_core (c : ClassId) : core.fieldsOf c = [] := by
  have hown (d : ClassId) : core.ownFields d = [] := by
    have hclasses : ∀ d, (coreClasses.foldl (fun t c => t.addCoreClass c (some .object))
        (addCoreClass {} .object none)).ownFields d = [] := by
      intro d
      have hall : ∀ k ∈ (coreClasses.foldl (fun t c => t.addCoreClass c (some .object))
          (addCoreClass {} .object none)).classes, k.fields = [] := by decide
      unfold ownFields
      cases hk : class? _ d with
      | none => rfl
      | some k => exact hall k (List.mem_of_find?_eq_some hk)
    unfold core
    generalize coreMethods = methods
    generalize coreClasses.foldl _ _ = t at hclasses
    induction methods generalizing t with
    | nil => exact hclasses d
    | cons m methods ih =>
      refine ih _ ?_
      dsimp only
      split
      case h_1 heq => exact fun d => ((addMethod_frame heq).2.2 d).trans (hclasses d)
      case h_2 => exact hclasses
  rw [fieldsOf_eq]
  exact List.flatMap_eq_nil_iff.mpr fun d _ => hown d

theorem fieldsApart_extend_iff {as : List Addition} (h : t.Forest) (hslots : t.Slotted) (hrun : t.extend as = .ok t') :
    t'.FieldsApart ↔ t.FieldsApart ∧ t.Orderly as := by
  induction as generalizing t with
  | nil =>
    obtain rfl := pure_eq_ok.mp hrun
    exact (and_iff_left trivial).symm
  | cons a as ih =>
    obtain ⟨t₁, hstep, hrest⟩ := bind_eq_ok.mp ((List.foldlM_cons ..).symm.trans hrun)
    obtain ⟨h₁, hslots₁, hiff⟩ := a.run_layout h hslots hstep
    rw [ih h₁ hslots₁ hrest, hiff, Orderly, and_assoc]
    refine and_congr_right fun _ => and_congr_right fun _ =>
      ⟨fun horderly t₂ hstep' => ?_, fun horderly => horderly t₁ hstep⟩
    obtain rfl := Except.ok.inj (hstep.symm.trans hstep')
    exact horderly

/-- The fields of instances have places of their own if and only if no field was added to a class below which there were
fields already. -/
theorem fieldsApart_iff {as : List Addition} (hrun : core.extend as = .ok t) : t.FieldsApart ↔ core.Orderly as := by
  have hslots : core.Slotted := fun d f hmem => by simp [fieldsOf_core] at hmem
  have happart : core.FieldsApart := fun c => by simp [fieldsOf_core]
  rw [fieldsApart_extend_iff forest_core hslots hrun, and_iff_right happart]

/-- Two classes, of which the one above gets its field first. -/
def fieldAboveFirst : List Addition :=
  [.cls "A" none, .cls "B" (some ⟨64⟩), .field ⟨64⟩ "x" false .dynamic, .field ⟨65⟩ "y" false .dynamic]

theorem fieldAboveFirst_apart : ∃ t, core.extend fieldAboveFirst = .ok t ∧ t.FieldsApart := by
  have hok : (core.extend fieldAboveFirst).toOption.isSome = true := by decide +kernel
  obtain ⟨t, ht⟩ := Option.isSome_iff_exists.mp hok
  have hrun := toOption_eq_some_iff.mp ht
  exact ⟨t, hrun, (fieldsApart_iff hrun).mpr (by decide +kernel)⟩

/-- The same two classes, of which the one below gets its field first. -/
def fieldBelowFirst : List Addition :=
  [.cls "A" none, .cls "B" (some ⟨64⟩), .field ⟨65⟩ "y" false .dynamic, .field ⟨64⟩ "x" false .dynamic]

/-- Both fields of an instance of the class below have the offset 8. -/
theorem fieldBelowFirst_overlaps : ∃ t, core.extend fieldBelowFirst = .ok t ∧
    (t.fieldsOf ⟨65⟩).map (fun f => (f.name, f.offset)) = [("y", 8), ("x", 8)] ∧ ¬ t.FieldsApart := by
  have hcompute : ((core.extend fieldBelowFirst).toOption.map fun t =>
      (t.fieldsOf ⟨65⟩).map fun f => (f.name, f.offset)) = some [("y", 8), ("x", 8)] := by decide +kernel
  obtain ⟨t, ht, hfields⟩ := Option.map_eq_some_iff.mp hcompute
  refine ⟨t, toOption_eq_some_iff.mp ht, hfields, fun happart => ?_⟩
  have hoffsets : (((t.fieldsOf ⟨65⟩).map fun f => (f.name, f.offset)).map (·.2)).Nodup := by
    rw [List.map_map]
    exact List.pairwise_map.mpr (happart ⟨65⟩)
  rw [hfields] at hoffsets
  simp at hoffsets

end Hierarchy

end Midend
