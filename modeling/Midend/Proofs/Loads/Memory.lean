import Midend.Loads.Place
import Midend.Proofs.Execution

/-! # Memory

What loads and stores do in an execution. A store writes its own cell and no other one, and calls may write any cell.
Places are then cells, once their operands have values.
-/

namespace Midend

namespace Execution

/-- The element gets the value, and nothing else changes. -/
structure Memory.WritesElement (μ : Memory) (array index v : Value) (μ' : Memory) : Prop where
  written : μ'.element array index = v
  elements : ∀ a k, ¬ (a = array ∧ k = index) → μ'.element a k = μ.element a k
  fields : μ'.field = μ.field

/-- Loads read the cell of their operands, stores write it, and of the rest only what has a side effect may write.
Arrays of numbers other than doubles may hold something else than what was stored. All other results are arbitrary, and
so is the way that control takes. -/
def memoryMeaning : Meaning Memory where
  does σ μ _ d result μ' :=
    match d with
    | .loadField offset _ _ _ object => μ' = μ ∧ ∀ o, σ object = some o → result = some (μ.field o offset)
    | .loadIndexed _ array index =>
      μ' = μ ∧ ∀ a k, σ array = some a → σ index = some k → result = some (μ.element a k)
    | .storeField offset _ object value =>
      ∀ o v, σ object = some o → σ value = some v → μ.WritesField o offset v μ'
    | .storeIndexed cls _ array index value => ∀ a k v, σ array = some a → σ index = some k → σ value = some v →
      ∃ stored, μ.WritesElement a k stored μ' ∧ (cls = .array ∨ cls = .float64Array → stored = v)
    | d => d.hasSideEffect = false → μ' = μ
  goes _ _ _ _ := True

end Execution

namespace Loads

open Execution

variable {σ σ' : Values} {μ μ' : Memory} {ρ ρ' : InstId → InstId} {d : Inst} {i : InstId} {result : Option Value}

namespace Place

def operands : Place → List InstId
  | field object _ => [object]
  | element array index => [array, index]

def map (ρ : InstId → InstId) : Place → Place
  | field object offset => field (ρ object) offset
  | element array index => element (ρ array) (ρ index)

/-- What is in the cell, once the operands have values. -/
def contents (σ : Values) (μ : Memory) : Place → Option Value
  | field object offset => (σ object).map fun o => μ.field o offset
  | element array index => (σ array).bind fun a => (σ index).map fun k => μ.element a k

variable {p q : Place}

@[simp] theorem region_map : (p.map ρ).region = p.region := by cases p <;> rfl

@[simp] theorem operands_map : (p.map ρ).operands = p.operands.map ρ := by cases p <;> rfl

theorem map_map : (p.map ρ).map ρ' = p.map fun a => ρ' (ρ a) := by cases p <;> rfl

theorem map_congr (h : ∀ a ∈ p.operands, ρ a = ρ' a) : p.map ρ = p.map ρ' := by
  cases p <;> simp_all [map, operands]

theorem contents_congr (h : ∀ a ∈ p.operands, σ a = σ' a) : p.contents σ μ = p.contents σ' μ := by
  cases p <;> simp_all [contents, operands]

theorem contents_map : (p.map ρ).contents σ μ = p.contents (fun a => σ (ρ a)) μ := by cases p <;> rfl

end Place

/-! ## What instructions do to places -/

theorem storedPlace?_mapArgs : storedPlace? (d.mapArgs fun _ => ρ) =
    (storedPlace? d).map fun s => (s.1.map ρ, s.2.map ρ) := by
  cases d with
  | storeIndexed cls barrier array index value =>
    simp only [storedPlace?, Inst.mapArgs, Option.map_some, Place.map]
    split <;> rfl
  | _ => rfl

theorem operands_subset_of_loads {p : Place} (h : loadedPlace? d = some p) : p.operands ⊆ d.args := by
  cases d with
  | loadField offset result recognized immutable object =>
    cases immutable with
    | true => cases h
    | false =>
      obtain rfl := Option.some_inj.mp h
      simp [Place.operands, Inst.args]
  | loadIndexed cls array index =>
    obtain rfl := Option.some_inj.mp h
    simp [Place.operands, Inst.args]
  | _ => cases h

theorem operands_subset_of_stores {p : Place} {v : Option InstId} (h : storedPlace? d = some (p, v)) :
    p.operands ⊆ d.args ∧ ∀ a ∈ v, a ∈ d.args := by
  cases d with
  | storeField offset barrier object value =>
    obtain ⟨rfl, rfl⟩ := Prod.mk.inj (Option.some_inj.mp h)
    simp [Place.operands, Inst.args]
  | storeIndexed cls barrier array index value =>
    obtain ⟨rfl, rfl⟩ := Prod.mk.inj (Option.some_inj.mp h)
    refine ⟨by simp [Place.operands, Inst.args], fun a ha => ?_⟩
    split at ha
    · simp_all [Inst.args]
    · cases ha
  | _ => cases h

theorem isDefinition_of_loads {p : Place} (h : loadedPlace? d = some p) : d.isDefinition = true := by
  cases d with
  | loadField => rfl
  | loadIndexed => rfl
  | _ => cases h

theorem not_isTerminator_of_loads {p : Place} (h : loadedPlace? d = some p) : d.isTerminator = false := by
  cases d with
  | loadField => rfl
  | loadIndexed => rfl
  | _ => cases h

theorem storedPlace?_of_loads {p : Place} (h : loadedPlace? d = some p) : storedPlace? d = none := by
  cases d with
  | loadField => rfl
  | loadIndexed => rfl
  | _ => cases h

theorem hasSideEffect_of_loads {p : Place} (h : loadedPlace? d = some p) : d.hasSideEffect = false := by
  cases d with
  | loadField => rfl
  | loadIndexed => rfl
  | _ => cases h

theorem result_of_loads {p : Place} (h : loadedPlace? d = some p) (hdoes : memoryMeaning.does σ μ i d result μ')
    (hargs : ∀ a ∈ d.args, (σ a).isSome = true) : result = p.contents σ μ := by
  cases d with
  | loadField offset cls recognized immutable object =>
    cases immutable with
    | true => cases h
    | false =>
      obtain rfl := Option.some_inj.mp h
      obtain ⟨o, ho⟩ := Option.isSome_iff_exists.mp (hargs object (by simp [Inst.args]))
      rw [hdoes.2 o ho]
      simp [Place.contents, ho]
  | loadIndexed cls array index =>
    obtain rfl := Option.some_inj.mp h
    obtain ⟨a, ha⟩ := Option.isSome_iff_exists.mp (hargs array (by simp [Inst.args]))
    obtain ⟨k, hk⟩ := Option.isSome_iff_exists.mp (hargs index (by simp [Inst.args]))
    rw [hdoes.2 a k ha hk]
    simp [Place.contents, ha, hk]
  | _ => cases h

/-- The instruction writes nothing that the place may be. -/
def Leaves (d : Inst) (p : Place) : Prop :=
  match storedPlace? d with
  | some (q, _) => q.region ≠ p.region
  | none => d.hasSideEffect = false

theorem memory_of_no_store (h : storedPlace? d = none) (heffect : d.hasSideEffect = false)
    (hdoes : memoryMeaning.does σ μ i d result μ') : μ' = μ := by
  cases d with
  | loadField => exact hdoes.1
  | loadIndexed => exact hdoes.1
  | storeField => cases h
  | storeIndexed => cases h
  | _ => exact hdoes heffect

theorem contents_of_leaves {p : Place} (h : Leaves d p) (hdoes : memoryMeaning.does σ μ i d result μ')
    (hargs : ∀ a ∈ d.args, (σ a).isSome = true) : p.contents σ' μ' = p.contents σ' μ := by
  unfold Leaves at h
  split at h
  case h_2 hnone => rw [memory_of_no_store hnone h hdoes]
  case h_1 q v hstore =>
    cases d with
    | storeField offset barrier object value =>
      obtain ⟨rfl, -⟩ := Prod.mk.inj (Option.some_inj.mp hstore)
      obtain ⟨o, ho⟩ := Option.isSome_iff_exists.mp (hargs object (by simp [Inst.args]))
      obtain ⟨x, hx⟩ := Option.isSome_iff_exists.mp (hargs value (by simp [Inst.args]))
      have hwrites := hdoes o x ho hx
      cases p with
      | field object' offset' =>
        have hne : offset ≠ offset' := fun heq => h (by rw [heq]; rfl)
        simp only [Place.contents]
        congr 1
        funext y
        exact hwrites.fields y offset' fun heq => hne heq.2.symm
      | element array' index' => simp only [Place.contents, hwrites.elements]
    | storeIndexed cls barrier array index value =>
      obtain ⟨rfl, -⟩ := Prod.mk.inj (Option.some_inj.mp hstore)
      obtain ⟨a, ha⟩ := Option.isSome_iff_exists.mp (hargs array (by simp [Inst.args]))
      obtain ⟨k, hk⟩ := Option.isSome_iff_exists.mp (hargs index (by simp [Inst.args]))
      obtain ⟨x, hx⟩ := Option.isSome_iff_exists.mp (hargs value (by simp [Inst.args]))
      obtain ⟨y, hwrites, -⟩ := hdoes a k x ha hk hx
      cases p with
      | field object' offset' => simp only [Place.contents, hwrites.fields]
      | element array' index' => exact absurd rfl h
    | _ => cases hstore

theorem contents_of_stores {p : Place} {v : InstId} (h : storedPlace? d = some (p, some v))
    (hdoes : memoryMeaning.does σ μ i d result μ') (hargs : ∀ a ∈ d.args, (σ a).isSome = true) :
    p.contents σ μ' = σ v := by
  cases d with
  | storeField offset barrier object value =>
    obtain ⟨rfl, hv⟩ := Prod.mk.inj (Option.some_inj.mp h)
    obtain rfl := Option.some_inj.mp hv
    obtain ⟨o, ho⟩ := Option.isSome_iff_exists.mp (hargs object (by simp [Inst.args]))
    obtain ⟨x, hx⟩ := Option.isSome_iff_exists.mp (hargs value (by simp [Inst.args]))
    have hwrites := hdoes o x ho hx
    simp [Place.contents, ho, hx, hwrites.written]
  | storeIndexed cls barrier array index value =>
    obtain ⟨rfl, hv⟩ := Prod.mk.inj (Option.some_inj.mp h)
    obtain ⟨a, ha⟩ := Option.isSome_iff_exists.mp (hargs array (by simp [Inst.args]))
    obtain ⟨k, hk⟩ := Option.isSome_iff_exists.mp (hargs index (by simp [Inst.args]))
    obtain ⟨x, hx⟩ := Option.isSome_iff_exists.mp (hargs value (by simp [Inst.args]))
    obtain ⟨y, hwrites, hstored⟩ := hdoes a k x ha hk hx
    split at hv
    case isFalse => cases hv
    case isTrue hcls =>
      obtain rfl := Option.some_inj.mp hv
      obtain rfl := hstored (by simpa using hcls)
      simp [Place.contents, ha, hk, hx, hwrites.written]
  | _ => cases h

/-- An instruction does the same with other operands that have the same values. -/
theorem does_mapArgs (h : ∀ a ∈ d.args, σ' (ρ a) = σ a) (hdoes : memoryMeaning.does σ μ i d result μ') :
    memoryMeaning.does σ' μ i (d.mapArgs fun _ => ρ) result μ' := by
  cases d with
  | loadField offset cls recognized immutable object =>
    have hobject : σ' (ρ object) = σ object := h object (by simp [Inst.args])
    exact ⟨hdoes.1, fun o ho => hdoes.2 o (hobject ▸ ho)⟩
  | loadIndexed cls array index =>
    have harray : σ' (ρ array) = σ array := h array (by simp [Inst.args])
    have hindex : σ' (ρ index) = σ index := h index (by simp [Inst.args])
    exact ⟨hdoes.1, fun a k ha hk => hdoes.2 a k (harray ▸ ha) (hindex ▸ hk)⟩
  | storeField offset barrier object value =>
    have hobject : σ' (ρ object) = σ object := h object (by simp [Inst.args])
    have hvalue : σ' (ρ value) = σ value := h value (by simp [Inst.args])
    exact fun o v ho hv => hdoes o v (hobject ▸ ho) (hvalue ▸ hv)
  | storeIndexed cls barrier array index value =>
    have harray : σ' (ρ array) = σ array := h array (by simp [Inst.args])
    have hindex : σ' (ρ index) = σ index := h index (by simp [Inst.args])
    have hvalue : σ' (ρ value) = σ value := h value (by simp [Inst.args])
    exact fun a k v ha hk hv => hdoes a k v (harray ▸ ha) (hindex ▸ hk) (hvalue ▸ hv)
  | compare c =>
    intro heffect
    exact hdoes (by simpa [Inst.mapArgs, Inst.hasSideEffect, Comparison.isGeneric] using heffect)
  | branch c =>
    intro heffect
    exact hdoes (by simpa [Inst.mapArgs, Inst.hasSideEffect, Comparison.isGeneric] using heffect)
  | _ => exact hdoes

end Loads

end Midend
