import Midend.Graph.Layout
import Midend.Proofs.Reading

/-! # Places of instructions

In a sound layout every block lists exactly the instructions that have it as their home, each of them once.
-/

namespace Midend

namespace SideTable

variable {α : Type} {t : SideTable α} {j k : Nat}

theorem get?_insert (a : α) : (t.insert k a).get? j = if j = k then some a else t.get? j := by
  unfold get? insert grown
  rw [Array.getElem?_setIfInBounds]
  by_cases hj : k = j
  · subst hj
    have hlt : k < t.slots.size + (k + 1 - t.slots.size) := by omega
    simp [hlt]
  · rw [if_neg hj, if_neg (Ne.symm hj), Array.getElem?_append]
    split
    · rfl
    · rename_i hle
      rw [Array.getElem?_replicate, Array.getElem?_eq_none (by omega)]
      split <;> rfl

@[simp] theorem get?_insert_self (a : α) : (t.insert k a).get? k = some a := by simp [get?_insert]

theorem get?_erase : (t.erase k).get? j = if j = k then none else t.get? j := by
  unfold get? erase
  rw [Array.getElem?_setIfInBounds]
  by_cases hj : k = j
  · subst hj
    simp only [if_true]
    split <;> rfl
  · rw [if_neg hj, if_neg (Ne.symm hj)]

theorem add_eq_ok {a : α} {t' : SideTable α} : t.add k a = .ok t' ↔ t.get? k = none ∧ t' = t.insert k a := by
  unfold add contains
  cases t.get? k <;> simp [eq_comm]

end SideTable

namespace Layout

variable {l l' : Layout} {i j : InstId} {b c : BlockId}

def home? (l : Layout) (i : InstId) : Option BlockId := l.homes.get? i.index

theorem isPlaced_iff : l.isPlaced i = true ↔ ∃ b, l.home? i = some b := Option.isSome_iff_exists

theorem home_eq_ok : l.home i = .ok b ↔ l.home? i = some b := orFault_eq_ok

theorem insts_setInsts (is : List InstId) : (l.setInsts b is).insts c = if c = b then is else l.insts c := by
  unfold insts setInsts
  by_cases h : c = b
  · subst h
    simp
  · have hne : c.index ≠ b.index := fun hi => h (BlockId.index_inj.mp hi)
    rw [if_neg h, SideTable.get?_insert, if_neg hne]

/-- `i` has a place in `b`, whose list is now `is`. -/
def place (l : Layout) (i : InstId) (b : BlockId) (is : List InstId) : Layout :=
  { l with homes := l.homes.insert i.index b }.setInsts b is

def unplace (l : Layout) (i : InstId) (b : BlockId) : Layout :=
  { l with homes := l.homes.erase i.index }.setInsts b ((l.insts b).erase i)

theorem insts_place (is : List InstId) : (l.place i b is).insts c = if c = b then is else l.insts c :=
  insts_setInsts is

theorem home?_place (is : List InstId) : (l.place i b is).home? j = if j = i then some b else l.home? j := by
  show (l.homes.insert i.index b).get? j.index = _
  rw [SideTable.get?_insert]
  simp [home?, ← InstId.index_inj]

theorem insts_unplace : (l.unplace i b).insts c = if c = b then (l.insts b).erase i else l.insts c :=
  insts_setInsts _

theorem home?_unplace : (l.unplace i b).home? j = if j = i then none else l.home? j := by
  show (l.homes.erase i.index).get? j.index = _
  rw [SideTable.get?_erase]
  simp [home?, ← InstId.index_inj]

theorem remove_eq_ok : l.remove i = .ok l' ↔ ∃ b, l.home? i = some b ∧ l' = l.unplace i b := by
  unfold remove home?
  simp only [bind_eq_ok, orFault_eq_ok, pure_eq_ok, eq_comm (b := l')]
  rfl

theorem settle_eq_ok : l.settle i b = .ok l' ↔
    l.home? i = none ∧ l' = { l with homes := l.homes.insert i.index b } := by
  unfold settle home?
  simp only [bind_eq_ok, SideTable.add_eq_ok, pure_eq_ok]
  constructor
  · rintro ⟨_, ⟨hnone, rfl⟩, rfl⟩
    exact ⟨hnone, rfl⟩
  · rintro ⟨hnone, rfl⟩
    exact ⟨_, ⟨hnone, rfl⟩, rfl⟩

theorem append_eq_ok : l.append i b = .ok l' ↔ l.home? i = none ∧ l' = l.place i b (l.insts b ++ [i]) := by
  unfold append
  simp only [bind_eq_ok, settle_eq_ok, pure_eq_ok]
  constructor
  · rintro ⟨_, ⟨hnone, rfl⟩, rfl⟩
    exact ⟨hnone, rfl⟩
  · rintro ⟨hnone, rfl⟩
    exact ⟨_, ⟨hnone, rfl⟩, rfl⟩

theorem prepend_eq_ok : l.prepend i b = .ok l' ↔ l.home? i = none ∧ l' = l.place i b (i :: l.insts b) := by
  unfold prepend
  simp only [bind_eq_ok, settle_eq_ok, pure_eq_ok]
  constructor
  · rintro ⟨_, ⟨hnone, rfl⟩, rfl⟩
    exact ⟨hnone, rfl⟩
  · rintro ⟨hnone, rfl⟩
    exact ⟨_, ⟨hnone, rfl⟩, rfl⟩

theorem insertAfter_eq_ok : l.insertAfter i j = .ok l' ↔
    ∃ b, l.home? j = some b ∧ l.home? i = none ∧ l' = l.place i b (putAfter j i (l.insts b)) := by
  unfold insertAfter
  simp only [bind_eq_ok, home_eq_ok, settle_eq_ok, pure_eq_ok]
  constructor
  · rintro ⟨b, hb, _, ⟨hnone, rfl⟩, rfl⟩
    exact ⟨b, hb, hnone, rfl⟩
  · rintro ⟨b, hb, hnone, rfl⟩
    exact ⟨b, hb, _, ⟨hnone, rfl⟩, rfl⟩

theorem putAfter_perm {is : List InstId} (h : j ∈ is) : (putAfter j i is).Perm (i :: is) := by
  induction is with
  | nil => simp at h
  | cons x xs ih =>
    unfold putAfter
    split
    · exact List.Perm.swap i x xs
    case isFalse hx =>
      have hmem : j ∈ xs := (List.mem_cons.mp h).resolve_left (Ne.symm hx)
      exact ((ih hmem).cons x).trans (List.Perm.swap i x xs)

theorem filter_putAfter {p : InstId → Bool} (hi : p i = false) (is : List InstId) :
    (putAfter j i is).filter p = is.filter p := by
  induction is with
  | nil => rfl
  | cons x xs ih =>
    unfold putAfter
    split
    · simp [List.filter_cons, hi]
    · simp [List.filter_cons, ih]

theorem insertBefore_eq_ok : l.insertBefore i j = .ok l' ↔
    ∃ b, l.home? j = some b ∧ l.home? i = none ∧ l' = l.place i b (putBefore j i (l.insts b)) := by
  unfold insertBefore
  simp only [bind_eq_ok, home_eq_ok, settle_eq_ok, pure_eq_ok]
  constructor
  · rintro ⟨b, hb, _, ⟨hnone, rfl⟩, rfl⟩
    exact ⟨b, hb, hnone, rfl⟩
  · rintro ⟨b, hb, hnone, rfl⟩
    exact ⟨b, hb, _, ⟨hnone, rfl⟩, rfl⟩

theorem putBefore_perm {is : List InstId} (h : j ∈ is) : (putBefore j i is).Perm (i :: is) := by
  induction is with
  | nil => simp at h
  | cons x xs ih =>
    unfold putBefore
    split
    · exact List.Perm.refl _
    case isFalse hx =>
      have hmem : j ∈ xs := (List.mem_cons.mp h).resolve_left (Ne.symm hx)
      exact ((ih hmem).cons x).trans (List.Perm.swap i x xs)

/-! ## Sound layouts -/

structure Sound (l : Layout) : Prop where
  mem_iff : ∀ {b i}, i ∈ l.insts b ↔ l.home? i = some b
  nodup : ∀ b, (l.insts b).Nodup

instance : Decidable l.Sound :=
  decidable_of_iff ((∀ b < l.lists.slots.size, (l.insts ⟨b⟩).Nodup ∧ ∀ i ∈ l.insts ⟨b⟩, l.home? i = some ⟨b⟩) ∧
    ∀ i < l.homes.slots.size, ∀ b ∈ l.home? ⟨i⟩, ⟨i⟩ ∈ l.insts b) <| by
    constructor
    · rintro ⟨hlists, hhomes⟩
      have hempty (b : BlockId) (hb : l.lists.slots.size ≤ b.index) : l.insts b = [] := by
        simp [insts, SideTable.get?, Array.getElem?_eq_none hb]
      refine ⟨fun {b i} => ⟨fun hi => ?_, fun hi => ?_⟩, fun b => ?_⟩
      · obtain hb | hb := Nat.lt_or_ge b.index l.lists.slots.size
        · exact (hlists b.index hb).2 i hi
        · rw [hempty b hb] at hi
          cases hi
      · obtain hlt | hge := Nat.lt_or_ge i.index l.homes.slots.size
        · exact hhomes i.index hlt b hi
        · simp [home?, SideTable.get?, Array.getElem?_eq_none hge] at hi
      · obtain hb | hb := Nat.lt_or_ge b.index l.lists.slots.size
        · exact (hlists b.index hb).1
        · rw [hempty b hb]
          exact List.nodup_nil
    · exact fun h => ⟨fun b _ => ⟨h.nodup _, fun i => h.mem_iff.mp⟩, fun i _ b hb => h.mem_iff.mpr hb⟩

theorem Sound.empty : ({} : Layout).Sound where
  mem_iff := by simp [insts, home?, SideTable.get?]
  nodup := by simp [insts, SideTable.get?]

theorem Sound.block_unique (hl : l.Sound) (hb : i ∈ l.insts b) (hc : i ∈ l.insts c) : b = c :=
  Option.some_inj.mp ((hl.mem_iff.mp hb).symm.trans (hl.mem_iff.mp hc))

theorem Sound.split_unique (hl : l.Sound) {front rest front' rest' : List InstId}
    (hsplit : l.insts b = front ++ i :: rest) (hsplit' : l.insts b = front' ++ i :: rest') : front = front' ∧
    rest = rest' := by
  have hnodup : (front ++ i :: rest).Nodup := hsplit ▸ hl.nodup b
  have hfront : i ∉ front := fun h => (List.nodup_append.mp hnodup).2.2 i h i List.mem_cons_self rfl
  have hrest : i ∉ rest := (List.nodup_cons.mp (List.nodup_append.mp hnodup).2.1).1
  obtain ⟨hfront, -, hrest⟩ := (List.append_cons_inj_of_notMem hfront hrest).mp (hsplit.symm.trans hsplit')
  exact ⟨hfront, hrest⟩

theorem Sound.after_eq_ok (hl : l.Sound) {is : List InstId} :
    l.after i = .ok is ↔ ∃ b front, l.insts b = front ++ i :: is := by
  unfold after
  simp only [bind_eq_ok, home_eq_ok, pure_eq_ok]
  have hafter (front back : List InstId) (hnot : i ∉ front) : ((front ++ i :: back).dropWhile (· != i)).drop 1 =
    back := by
    have hne : ∀ x ∈ front, (x != i) = true := fun x hx => bne_iff_ne.mpr fun h => hnot (h ▸ hx)
    rw [List.dropWhile_append_of_pos hne]
    simp
  constructor
  · rintro ⟨b, hb, rfl⟩
    obtain ⟨front, back, hsplit, hnot⟩ := List.eq_append_cons_of_mem (hl.mem_iff.mpr hb)
    exact ⟨b, front, by rw [hsplit, hafter front back hnot]⟩
  · rintro ⟨b, front, hsplit⟩
    have hnodup : (front ++ i :: is).Nodup := hsplit ▸ hl.nodup b
    refine ⟨b, hl.mem_iff.mp (by simp [hsplit]), ?_⟩
    rw [hsplit]
    exact hafter front is fun h => (List.nodup_append.mp hnodup).2.2 i h i List.mem_cons_self rfl

theorem Sound.place (hl : l.Sound) (hfree : l.home? i = none) {is : List InstId}
    (his : is.Perm (i :: l.insts b)) : (l.place i b is).Sound where
  mem_iff := by
    intro c j
    have hi (d : BlockId) : i ∉ l.insts d := fun h => by simp [hl.mem_iff.mp h] at hfree
    rw [insts_place, home?_place]
    by_cases hc : c = b
    · subst hc
      simp only [if_true, his.mem_iff, List.mem_cons, hl.mem_iff]
      by_cases hj : j = i <;> simp [hj]
    · by_cases hj : j = i
      · subst hj
        simp [hc, hi, Ne.symm hc]
      · simp [hc, hj, hl.mem_iff]
  nodup := by
    intro c
    rw [insts_place]
    split
    · have hi : i ∉ l.insts b := fun h => by simp [hl.mem_iff.mp h] at hfree
      exact his.nodup_iff.mpr (List.nodup_cons.mpr ⟨hi, hl.nodup b⟩)
    · exact hl.nodup c

theorem Sound.unplace (hl : l.Sound) (hb : l.home? i = some b) : (l.unplace i b).Sound where
  mem_iff := by
    intro c j
    rw [insts_unplace, home?_unplace]
    by_cases hc : c = b
    · subst hc
      simp only [if_true, (hl.nodup c).mem_erase_iff, hl.mem_iff]
      by_cases hj : j = i <;> simp [hj]
    · by_cases hj : j = i
      · subst hj
        simp [hc, hl.mem_iff, hb, Ne.symm hc]
      · simp [hc, hj, hl.mem_iff]
  nodup := by
    intro c
    rw [insts_unplace]
    split
    · exact (hl.nodup b).erase i
    · exact hl.nodup c

/-! ## All instructions of a block -/

theorem get?_foldl_insert {is : List InstId} {t : SideTable BlockId} :
    (is.foldl (fun t i => t.insert i.index b) t).get? j.index = if j ∈ is then some b else t.get? j.index := by
  induction is generalizing t with
  | nil => simp
  | cons i is ih =>
    rw [List.foldl_cons, ih, SideTable.get?_insert]
    by_cases hj : j = i
    · simp [hj]
    · have hne : j.index ≠ i.index := fun h => hj (InstId.index_inj.mp h)
      simp [hj, hne]

theorem Sound.home?_moveAll (hl : l.Sound) :
    (l.moveAll b c).home? j = if j ∈ l.insts b then some c else l.home? j := by
  unfold moveAll
  split
  case isTrue hbc =>
    subst hbc
    split
    case isTrue hj => exact hl.mem_iff.mp hj
    case isFalse => rfl
  case isFalse => exact get?_foldl_insert

theorem insts_moveAll (hne : b ≠ c) (d : BlockId) : (l.moveAll b c).insts d =
    if d = b then [] else if d = c then l.insts c ++ l.insts b else l.insts d := by
  unfold moveAll
  rw [if_neg hne, insts_setInsts, insts_setInsts]
  rfl

theorem Sound.moveAll (hl : l.Sound) : (l.moveAll b c).Sound := by
  by_cases hbc : b = c
  · rw [Layout.moveAll, if_pos hbc]
    exact hl
  have hdisjoint {d e : BlockId} {j : InstId} (hde : d ≠ e) (h : j ∈ l.insts d) : j ∉ l.insts e := by
    rw [hl.mem_iff] at h ⊢
    rw [h, Option.some_inj]
    exact hde
  refine ⟨fun {d j} => ?_, fun d => ?_⟩
  · rw [hl.home?_moveAll, insts_moveAll hbc]
    by_cases hj : j ∈ l.insts b
    · simp only [hj, if_true, Option.some_inj]
      by_cases hdb : d = b
      · simp [hdb, Ne.symm hbc]
      · by_cases hdc : d = c
        · simp [hdc, Ne.symm hbc, hj]
        · simp [hdb, hdc, hdisjoint (Ne.symm hdb) hj, Ne.symm hdc]
    · simp only [hj, if_false]
      by_cases hdb : d = b
      · subst hdb
        simpa [hl.mem_iff] using hj
      · by_cases hdc : d = c
        · simp [hdc, Ne.symm hbc, hj, hl.mem_iff]
        · simp [hdb, hdc, hl.mem_iff]
  · rw [insts_moveAll hbc]
    split
    · exact List.nodup_nil
    · split
      · refine List.nodup_append.mpr ⟨hl.nodup c, hl.nodup b, fun j hj k hk hjk => ?_⟩
        exact hdisjoint hbc (hjk ▸ hk) hj
      · exact hl.nodup d

/-! ## One instruction in the place of another -/

theorem map_replace_of_not_mem {is : List InstId} (h : i ∉ is) : (is.map fun k => if k = i then j else k) = is := by
  refine (List.map_congr_left fun k hk => ?_).trans (List.map_id is)
  exact if_neg (ne_of_mem_of_not_mem hk h)

theorem erase_putBefore {is : List InstId} (hnodup : is.Nodup) (hi : i ∈ is) (hj : j ≠ i) :
    (putBefore i j is).erase i = is.map fun k => if k = i then j else k := by
  induction is with
  | nil => simp at hi
  | cons k is ih =>
    obtain ⟨hk, hnodup⟩ := List.nodup_cons.mp hnodup
    unfold putBefore
    by_cases hki : k = i
    · subst hki
      rw [if_pos rfl, List.erase_cons_tail (by simpa using hj), List.erase_cons_head, List.map_cons, if_pos rfl,
        map_replace_of_not_mem hk]
    · rw [if_neg hki, List.erase_cons_tail (by simpa using hki), List.map_cons, if_neg hki,
        ih hnodup ((List.mem_cons.mp hi).resolve_left (Ne.symm hki))]

theorem erase_append_last {is : List InstId} (hnodup : is.Nodup) (hlast : is.getLast? = some i) :
    is.erase i ++ [j] = is.map fun k => if k = i then j else k := by
  obtain ⟨front, rfl⟩ := List.getLast?_eq_some_iff.mp hlast
  have hi : i ∉ front := fun h => (List.nodup_append.mp hnodup).2.2 i h i (by simp) rfl
  rw [List.erase_append_right _ hi, List.map_append, map_replace_of_not_mem hi]
  simp

structure Replaces (l : Layout) (i j : InstId) (l' : Layout) : Prop where
  sound : l'.Sound
  insts : ∀ b, l'.insts b = (l.insts b).map fun k => if k = i then j else k

theorem Sound.replaces_before (hl : l.Sound) (hi : l.home? i = some b) (hj : l.home? j = none)
    (hc : (l.place j b (putBefore i j (l.insts b))).home? i = some c) :
    l.Replaces i j ((l.place j b (putBefore i j (l.insts b))).unplace i c) := by
  have hmem : i ∈ l.insts b := hl.mem_iff.mpr hi
  have hij : i ≠ j := by
    rintro rfl
    simp [hi] at hj
  obtain rfl : b = c := by
    rw [home?_place, if_neg hij, hi] at hc
    exact Option.some_inj.mp hc
  refine ⟨(hl.place hj (putBefore_perm hmem)).unplace hc, fun d => ?_⟩
  rw [insts_unplace, insts_place, if_pos rfl, insts_place]
  by_cases hd : d = b
  · subst hd
    rw [if_pos rfl, erase_putBefore (hl.nodup d) hmem (Ne.symm hij)]
  · rw [if_neg hd, if_neg hd, map_replace_of_not_mem]
    intro hmem'
    exact hd (Option.some_inj.mp ((hl.mem_iff.mp hmem').symm.trans hi))

/-- The last instruction of a block is taken out, and `j` put at the end. -/
theorem Sound.replaces_last (hl : l.Sound) (hi : l.home? i = some b) (hj : (l.unplace i b).home? j = none)
    (hlast : (l.insts b).getLast? = some i) :
    l.Replaces i j ((l.unplace i b).place j b ((l.unplace i b).insts b ++ [j])) := by
  refine ⟨(hl.unplace hi).place hj (List.perm_append_singleton _ _), fun d => ?_⟩
  rw [insts_place, insts_unplace, insts_unplace, if_pos rfl]
  by_cases hd : d = b
  · subst hd
    rw [if_pos rfl, erase_append_last (hl.nodup d) hlast]
  · rw [if_neg hd, if_neg hd, map_replace_of_not_mem]
    intro hmem'
    exact hd (Option.some_inj.mp ((hl.mem_iff.mp hmem').symm.trans hi))

end Layout

end Midend
