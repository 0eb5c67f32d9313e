import Mathlib.Data.List.Induction
import Mathlib.Data.List.Nodup
import Mathlib.Data.List.Perm.Subperm
import Midend.Graph.Links
import Midend.Proofs.Graph.Layout

/-! # Links against lists

A `Links` and a `Layout` are given the same rearrangements. Both then hold the lists that the rearrangements tell of,
and both stop at the same ones.
-/

namespace Midend

variable {ls : BlockId → List InstId} {i j : InstId} {b c : BlockId}

/-! ## Rearrangements of lists -/

inductive Rearrangement where
  | append (i : InstId) (b : BlockId)
  | prepend (i : InstId) (b : BlockId)
  | insertBefore (i anchor : InstId)
  | insertAfter (i anchor : InstId)
  | remove (i : InstId)
  | moveAll (source target : BlockId)
deriving DecidableEq

def IsListed (ls : BlockId → List InstId) (i : InstId) : Prop := ∃ b, i ∈ ls b

theorem eq_update_of_unique (hj : ∀ c, j ∈ ls c → c = b) {f : List InstId → List InstId}
    (hf : ∀ is, j ∉ is → f is = is) :
    (fun c => f (ls c)) = Function.update ls b (f (ls b)) := by
  funext c
  rw [Function.update_apply]
  split
  case isTrue hc => rw [hc]
  case isFalse hc => exact hf _ fun hj' => hc (hj c hj')

namespace Rearrangement

def onLinks (k : Links) : Rearrangement → Except Fault Links
  | append i b => k.append i b
  | prepend i b => k.prepend i b
  | insertBefore i anchor => k.insertBefore i anchor
  | insertAfter i anchor => k.insertAfter i anchor
  | remove i => k.remove i
  | moveAll source target => k.moveAll source target

def onLayout (l : Layout) : Rearrangement → Except Fault Layout
  | append i b => l.append i b
  | prepend i b => l.prepend i b
  | insertBefore i anchor => l.insertBefore i anchor
  | insertAfter i anchor => l.insertAfter i anchor
  | remove i => l.remove i
  | moveAll source target => .ok (l.moveAll source target)

def onLists (ls : BlockId → List InstId) : Rearrangement → BlockId → List InstId
  | append i b => Function.update ls b (ls b ++ [i])
  | prepend i b => Function.update ls b (i :: ls b)
  | insertBefore i anchor => fun b => Layout.putBefore anchor i (ls b)
  | insertAfter i anchor => fun b => Layout.putAfter anchor i (ls b)
  | remove i => fun b => (ls b).erase i
  | moveAll source target =>
    if source = target then ls else Function.update (Function.update ls target (ls target ++ ls source)) source []

/-- A rearrangement that cannot be made stops with this fault. -/
inductive Refused (ls : BlockId → List InstId) : Rearrangement → Fault → Prop
  | append {i : InstId} {b : BlockId} (h : IsListed ls i) : Refused ls (.append i b) .duplicateKey
  | prepend {i : InstId} {b : BlockId} (h : IsListed ls i) : Refused ls (.prepend i b) .duplicateKey
  | beforeNothing {i j : InstId} (h : ¬ IsListed ls j) : Refused ls (.insertBefore i j) .missingSideKey
  | insertBefore {i j : InstId} (hj : IsListed ls j) (h : IsListed ls i) : Refused ls (.insertBefore i j) .duplicateKey
  | behindNothing {i j : InstId} (h : ¬ IsListed ls j) : Refused ls (.insertAfter i j) .missingSideKey
  | insertAfter {i j : InstId} (hj : IsListed ls j) (h : IsListed ls i) : Refused ls (.insertAfter i j) .duplicateKey
  | remove {i : InstId} (h : ¬ IsListed ls i) : Refused ls (.remove i) .notInLayout

/-- The lists after some rearrangements of empty ones. -/
def listsAfter (steps : List Rearrangement) : BlockId → List InstId := steps.foldl onLists fun _ => []

end Rearrangement

namespace Layout

variable {front rest : List InstId}

theorem putBefore_append (h : j ∉ front) : putBefore j i (front ++ j :: rest) = front ++ i :: j :: rest := by
  induction front with
  | nil => exact if_pos rfl
  | cons x xs ih =>
    obtain ⟨hx, hxs⟩ := List.ne_and_not_mem_of_not_mem_cons h
    rw [List.cons_append, putBefore, if_neg (Ne.symm hx), ih hxs, List.cons_append]

theorem putAfter_append (h : j ∉ front) : putAfter j i (front ++ j :: rest) = front ++ j :: i :: rest := by
  induction front with
  | nil => exact if_pos rfl
  | cons x xs ih =>
    obtain ⟨hx, hxs⟩ := List.ne_and_not_mem_of_not_mem_cons h
    rw [List.cons_append, putAfter, if_neg (Ne.symm hx), ih hxs, List.cons_append]

theorem putBefore_of_notMem {is : List InstId} (h : j ∉ is) : putBefore j i is = is := by
  induction is with
  | nil => rfl
  | cons x xs ih =>
    obtain ⟨hx, hxs⟩ := List.ne_and_not_mem_of_not_mem_cons h
    rw [putBefore, if_neg (Ne.symm hx), ih hxs]

theorem putAfter_of_notMem {is : List InstId} (h : j ∉ is) : putAfter j i is = is := by
  induction is with
  | nil => rfl
  | cons x xs ih =>
    obtain ⟨hx, hxs⟩ := List.ne_and_not_mem_of_not_mem_cons h
    rw [putAfter, if_neg (Ne.symm hx), ih hxs]

variable {l : Layout}

theorem Sound.placed_iff (hl : l.Sound) : IsListed l.insts i ↔ ∃ b, l.home? i = some b :=
  exists_congr fun _ => hl.mem_iff

theorem Sound.home?_eq_none (hl : l.Sound) (hi : ¬ IsListed l.insts i) : l.home? i = none :=
  Option.eq_none_iff_forall_ne_some.mpr fun b hb => hi ⟨b, hl.mem_iff.mpr hb⟩

theorem home_eq_error (h : l.home? i = none) : l.home i = .error .missingSideKey := by
  unfold home SideTable.get
  rw [show l.homes.get? i.index = none from h]
  rfl

theorem settle_eq_error (h : l.home? i = some c) : l.settle i b = .error .duplicateKey := by
  have hcontains : l.homes.contains i.index = true := Option.isSome_iff_exists.mpr ⟨c, h⟩
  unfold settle SideTable.add
  rw [if_pos hcontains]
  rfl

theorem insts_place_eq_update (is : List InstId) : (l.place i b is).insts = Function.update l.insts b is := by
  funext c
  rw [insts_place, Function.update_apply]

theorem insts_unplace_eq_update : (l.unplace i b).insts = Function.update l.insts b ((l.insts b).erase i) := by
  funext c
  rw [insts_unplace, Function.update_apply]

end Layout

namespace Links

variable {k k' : Links} {front old new rest : List InstId}

/-! ## Ends of lists -/

theorem ite_head? (h : j ∉ front) {o : Option InstId} :
    (if (front ++ j :: rest).head? = some j then o else (front ++ j :: rest).head?) = front.head?.or o := by
  cases front with
  | nil => simp
  | cons x xs => simp [Ne.symm (List.ne_and_not_mem_of_not_mem_cons h).1]

theorem ite_getLast? (h : j ∉ rest) {o : Option InstId} :
    (if (front ++ j :: rest).getLast? = some j then o else (front ++ j :: rest).getLast?) = rest.getLast?.or o := by
  rw [List.getLast?_append, List.getLast?_cons]
  cases hlast : rest.getLast? with
  | none => simp
  | some x =>
    have hx : x ≠ j := fun hx => h (hx ▸ List.mem_of_getLast? hlast)
    simp [hx]

/-! ## Single links -/

def spot? (k : Links) (i : InstId) : Option Spot := k.spots.get? i.index

theorem spot_eq_ok {s : Spot} : k.spot i = .ok s ↔ k.spot? i = some s := orFault_eq_ok

theorem spot_eq_error (h : k.spot? i = none) : k.spot i = .error .missingSideKey := by
  unfold spot SideTable.get
  rw [show k.spots.get? i.index = none from h]
  rfl

theorem span_setSpan (s : Span) : (k.setSpan b s).span c = if c = b then s else k.span c := by
  unfold span setSpan
  by_cases h : c = b
  · subst h
    simp
  · have hne : c.index ≠ b.index := fun hi => h (BlockId.index_inj.mp hi)
    rw [if_neg h, SideTable.get?_insert, if_neg hne]

@[simp] theorem spot?_setSpan (s : Span) : (k.setSpan b s).spot? i = k.spot? i := rfl

theorem spot?_insert (s : Spot) :
    spot? { k with spots := k.spots.insert i.index s } j = if j = i then some s else k.spot? j := by
  unfold spot?
  rw [SideTable.get?_insert]
  simp [← InstId.index_inj]

theorem spot?_erase : spot? { k with spots := k.spots.erase i.index } j = if j = i then none else k.spot? j := by
  unfold spot?
  rw [SideTable.get?_erase]
  simp [← InstId.index_inj]

theorem modifySpot_ok {o : Option InstId} {f : Spot → Spot} (h : ∀ j ∈ o, (k.spot? j).isSome) :
    ∃ k', k.modifySpot o f = .ok k' ∧ k'.spans = k.spans ∧
      ∀ j, k'.spot? j = if o = some j then (k.spot? j).map f else k.spot? j := by
  obtain _ | i := o
  · exact ⟨k, rfl, rfl, fun j => by simp⟩
  obtain ⟨s, hs⟩ := Option.isSome_iff_exists.mp (h i rfl)
  refine ⟨{ k with spots := k.spots.insert i.index (f s) }, ?_, rfl, fun j => ?_⟩
  · have hget : k.spots.get? i.index = some s := hs
    simp only [modifySpot, SideTable.modify, SideTable.modify?, hget]
    rfl
  · rw [spot?_insert]
    by_cases hj : j = i
    · subst hj
      simp [hs]
    · simp [hj, Ne.symm hj]

/-! ## Linked lists -/

structure Linked (k : Links) (ls : BlockId → List InstId) : Prop where
  nodup : ∀ b, (ls b).Nodup
  disjoint : ∀ {b c i}, i ∈ ls b → i ∈ ls c → b = c
  span : ∀ b, k.span b = ⟨(ls b).head?, (ls b).getLast?⟩
  spot : ∀ {b i front rest}, ls b = front ++ i :: rest → k.spot? i = some ⟨b, front.getLast?, rest.head?⟩
  free : ∀ {i}, ¬ IsListed ls i → k.spot? i = none

theorem Linked.empty : Linked {} fun _ => [] where
  nodup := fun _ => List.nodup_nil
  disjoint := by simp
  span := fun _ => by simp [Links.span, SideTable.get?]
  spot := by simp
  free := fun _ => by simp [spot?, SideTable.get?]

namespace Linked

theorem exists_spot (h : k.Linked ls) (hi : i ∈ ls b) : ∃ front rest, ls b = front ++ i :: rest ∧ i ∉ front ∧ i ∉ rest ∧
    k.spot? i = some ⟨b, front.getLast?, rest.head?⟩ := by
  obtain ⟨front, rest, hsplit⟩ := List.append_of_mem hi
  obtain ⟨-, hrest, hfront⟩ := List.nodup_append.mp (hsplit ▸ h.nodup b)
  exact ⟨front, rest, hsplit, fun hmem => hfront i hmem i List.mem_cons_self rfl, (List.nodup_cons.mp hrest).1,
    h.spot hsplit⟩

theorem isSome_spot (h : k.Linked ls) (hi : i ∈ ls b) : (k.spot? i).isSome := by
  obtain ⟨front, rest, -, -, -, hspot⟩ := h.exists_spot hi
  rw [hspot]
  rfl

end Linked

/-! ## Repairs

Between `front` and `rest` of the list of a block, where `old` was, there is now `new`, and the two ends are linked to
it. An instruction is put somewhere if `old` is empty, and taken out if `new` is.
-/

structure Spliced (k : Links) (ls : BlockId → List InstId) (b : BlockId) (front old new rest : List InstId)
    (k' : Links) : Prop where
  list : ls b = front ++ old ++ rest
  nodup : (front ++ new ++ rest).Nodup
  here : ∀ j ∈ new, ∀ c, j ∈ ls c → c = b
  spans : k'.spans = k.spans
  inserted : ∀ {j mid mid'}, new = mid ++ j :: mid' →
    k'.spot? j = some ⟨b, (front ++ mid).getLast?, (mid' ++ rest).head?⟩
  removed : ∀ j ∈ old, j ∉ new → k'.spot? j = none
  kept : ∀ j, j ∉ old → j ∉ new → k'.spot? j = (k.spot? j).map fun s => { s with
    prev := if rest.head? = some j then (front ++ new).getLast? else s.prev
    next := if front.getLast? = some j then (new ++ rest).head? else s.next }

namespace Spliced

variable {front' rest' : List InstId}

theorem mem_list (hs : k.Spliced ls b front old new rest k') (hj : j ∈ front ++ rest) : j ∈ ls b := by
  rw [hs.list]
  simp only [List.mem_append] at hj ⊢
  exact hj.imp_left .inl

theorem mem_cases (hj : j ∈ front ++ new ++ rest) : j ∈ new ∨ j ∈ front ++ rest := by
  simp only [List.mem_append] at hj ⊢
  tauto

theorem notMem_old (h : k.Linked ls) (hs : k.Spliced ls b front old new rest k') (hj : j ∈ front ++ rest) :
    j ∉ old := by
  have hnodup := h.nodup b
  rw [hs.list, List.append_assoc, List.nodup_append, List.nodup_append] at hnodup
  obtain ⟨-, ⟨-, -, hrest⟩, hfront⟩ := hnodup
  refine fun hold => (List.mem_append.mp hj).elim (fun hj => ?_) fun hj => hrest j hold j hj rfl
  exact hfront j hj j (List.mem_append_left _ hold) rfl

theorem notMem_other (h : k.Linked ls) (hs : k.Spliced ls b front old new rest k') (hc : c ≠ b)
    (hj : j ∈ front ++ new ++ rest) : j ∉ ls c := fun hmem =>
  (mem_cases hj).elim (fun hnew => hc (hs.here j hnew c hmem)) fun hkept => hc (h.disjoint hmem (hs.mem_list hkept))

theorem split_unique (hs : k.Spliced ls b front old new rest k') (hsplit : front ++ new ++ rest = front' ++ j :: rest')
    {xs ys : List InstId} (heq : front ++ new ++ rest = xs ++ j :: ys) : front' = xs ∧ rest' = ys := by
  obtain ⟨-, hcons, hdisjoint⟩ := List.nodup_append.mp (hsplit ▸ hs.nodup)
  obtain ⟨hxs, -, hys⟩ := (List.append_cons_inj_of_notMem (fun hmem => hdisjoint j hmem j List.mem_cons_self rfl)
    (List.nodup_cons.mp hcons).1).mp (hsplit.symm.trans heq)
  exact ⟨hxs, hys⟩

theorem spot_front (h : k.Linked ls) (hs : k.Spliced ls b front old new rest k') (hj : j ∈ front)
    (hsplit : front ++ new ++ rest = front' ++ j :: rest') : k'.spot? j = some ⟨b, front'.getLast?, rest'.head?⟩ := by
  have hnew : j ∉ new ∧ j ∉ rest := by
    have hnodup := hs.nodup
    rw [List.append_assoc, List.nodup_append] at hnodup
    exact not_or.mp fun hmem => hnodup.2.2 j hj j (List.mem_append.mpr hmem) rfl
  have hfirst : rest.head? ≠ some j := fun hhead => hnew.2 (List.mem_of_head? hhead)
  obtain ⟨xs, mid, rfl, hmid⟩ : ∃ xs mid, front = xs ++ j :: mid ∧ j ∉ mid := by
    obtain ⟨xs, mid, heq⟩ := List.append_of_mem hj
    have hnodup := hs.nodup.of_append_left.of_append_left
    rw [heq] at hnodup
    exact ⟨xs, mid, heq, (List.nodup_cons.mp hnodup.of_append_right).1⟩
  obtain ⟨rfl, rfl⟩ := hs.split_unique hsplit (show _ = xs ++ j :: (mid ++ new ++ rest) by simp)
  have hold : k.spot? j = some ⟨b, front'.getLast?, (mid ++ old ++ rest).head?⟩ := h.spot (by simp [hs.list])
  rw [hs.kept j (hs.notMem_old h (by simp)) hnew.1, hold, Option.map_some, if_neg hfirst]
  cases mid with
  | nil => simp
  | cons m ms =>
    have hlast : (front' ++ j :: m :: ms).getLast? ≠ some j := by
      rw [List.getLast?_append_of_ne_nil _ (by simp), List.getLast?_cons_cons]
      exact fun hlast => hmid (List.mem_of_getLast? hlast)
    rw [if_neg hlast]
    rfl

theorem spot_rest (h : k.Linked ls) (hs : k.Spliced ls b front old new rest k') (hj : j ∈ rest)
    (hsplit : front ++ new ++ rest = front' ++ j :: rest') : k'.spot? j = some ⟨b, front'.getLast?, rest'.head?⟩ := by
  have hfront : j ∉ front ++ new := fun hmem => (List.nodup_append.mp hs.nodup).2.2 j hmem j hj rfl
  have hlast : front.getLast? ≠ some j := fun hlast => hfront (List.mem_append_left _ (List.mem_of_getLast? hlast))
  obtain ⟨mid, ys, rfl, hmid⟩ := List.eq_append_cons_of_mem hj
  obtain ⟨rfl, rfl⟩ := hs.split_unique hsplit (show _ = front ++ new ++ mid ++ j :: ys by simp)
  have hold : k.spot? j = some ⟨b, (front ++ old ++ mid).getLast?, rest'.head?⟩ := h.spot (by simp [hs.list])
  rw [hs.kept j (hs.notMem_old h (by simp)) fun hnew => hfront (List.mem_append_right _ hnew), hold, Option.map_some,
    if_neg hlast]
  cases mid with
  | nil => simp
  | cons m ms =>
    have hhead : (m :: ms ++ j :: rest').head? ≠ some j := fun hhead =>
      hmid (Option.some_inj.mp hhead ▸ List.mem_cons_self)
    rw [if_neg hhead, List.getLast?_append_of_ne_nil _ (by simp), List.getLast?_append_of_ne_nil _ (by simp)]

theorem spot_here (h : k.Linked ls) (hs : k.Spliced ls b front old new rest k')
    (hsplit : front ++ new ++ rest = front' ++ j :: rest') : k'.spot? j = some ⟨b, front'.getLast?, rest'.head?⟩ := by
  have hj : j ∈ front ++ new ++ rest := hsplit ▸ by simp
  obtain hnew | hkept := mem_cases hj
  · obtain ⟨mid, mid', heq⟩ := List.append_of_mem hnew
    obtain ⟨rfl, rfl⟩ := hs.split_unique hsplit (show _ = front ++ mid ++ j :: (mid' ++ rest) by simp [heq])
    exact hs.inserted heq
  · obtain hfront | hrest := List.mem_append.mp hkept
    · exact hs.spot_front h hfront hsplit
    · exact hs.spot_rest h hrest hsplit

theorem spot_elsewhere (h : k.Linked ls) (hs : k.Spliced ls b front old new rest k') (hc : c ≠ b)
    (hsplit : ls c = front' ++ j :: rest') : k'.spot? j = some ⟨c, front'.getLast?, rest'.head?⟩ := by
  have hj : j ∈ ls c := hsplit ▸ by simp
  have hnot : j ∉ front ++ old ++ rest := hs.list ▸ fun hj' => hc (h.disjoint hj hj')
  have hnew : j ∉ new := fun hnew => hc (hs.here j hnew c hj)
  simp only [List.mem_append, not_or] at hnot
  have hhead : rest.head? ≠ some j := fun hhead => hnot.2 (List.mem_of_head? hhead)
  have hlast : front.getLast? ≠ some j := fun hlast => hnot.1.1 (List.mem_of_getLast? hlast)
  rw [hs.kept j hnot.1.2 hnew, h.spot hsplit]
  simp [hhead, hlast]

theorem free (h : k.Linked ls) (hs : k.Spliced ls b front old new rest k') (hhere : j ∉ front ++ new ++ rest)
    (helse : ∀ c, c ≠ b → j ∉ ls c) : k'.spot? j = none := by
  simp only [List.mem_append, not_or] at hhere
  by_cases hold : j ∈ old
  · exact hs.removed j hold hhere.1.2
  · have hfree : ¬ IsListed ls j := by
      rintro ⟨c, hj⟩
      have hc : c = b := by
        by_contra hc
        exact helse c hc hj
      rw [hc, hs.list] at hj
      simp only [List.mem_append] at hj
      tauto
    rw [hs.kept j hold hhere.1.2, h.free hfree]
    rfl

theorem linked (h : k.Linked ls) (hs : k.Spliced ls b front old new rest k') :
    (k'.setSpan b ⟨(front ++ new ++ rest).head?, (front ++ new ++ rest).getLast?⟩).Linked
      (Function.update ls b (front ++ new ++ rest)) := by
  refine ⟨fun c => ?_, fun {c d j} hc hd => ?_, fun c => ?_, fun {c j front' rest'} hsplit => ?_, fun {j} hfree => ?_⟩
  · by_cases hc : c = b
    · rw [hc, Function.update_self]
      exact hs.nodup
    · rw [Function.update_of_ne hc]
      exact h.nodup c
  · by_cases hcb : c = b <;> by_cases hdb : d = b <;>
      simp only [hcb, hdb, Function.update_self, Function.update_of_ne, ne_eq, not_false_eq_true] at hc hd
    · rw [hcb, hdb]
    · exact absurd hd (hs.notMem_other h hdb hc)
    · exact absurd hc (hs.notMem_other h hcb hd)
    · exact h.disjoint hc hd
  · rw [span_setSpan]
    by_cases hc : c = b
    · rw [if_pos hc, hc, Function.update_self]
    · rw [if_neg hc, Function.update_of_ne hc, ← h.span c]
      unfold Links.span
      rw [hs.spans]
  · rw [spot?_setSpan]
    by_cases hc : c = b
    · rw [hc, Function.update_self] at hsplit
      exact hc ▸ hs.spot_here h hsplit
    · rw [Function.update_of_ne hc] at hsplit
      exact hs.spot_elsewhere h hc hsplit
  · rw [spot?_setSpan]
    refine hs.free h (fun hj => hfree ⟨b, ?_⟩) fun c hc hj => hfree ⟨c, ?_⟩
    · rwa [Function.update_self]
    · rwa [Function.update_of_ne hc]

end Spliced

/-! ## Placing -/

theorem join_ok {prev next : Option InstId} (hfree : k.spot? i = none) (hprev : ∀ j ∈ prev, (k.spot? j).isSome)
    (hnext : ∀ j ∈ next, (k.spot? j).isSome) :
    ∃ k', k.join i b prev next = .ok k' ∧ k'.spans = k.spans ∧ k'.spot? i = some ⟨b, prev, next⟩ ∧
      ∀ j, j ≠ i → k'.spot? j = (k.spot? j).map fun s => { s with
        prev := if next = some j then some i else s.prev
        next := if prev = some j then some i else s.next } := by
  have hne {o : Option InstId} (ho : ∀ j ∈ o, (k.spot? j).isSome) : o ≠ some i := by
    rintro rfl
    simpa [hfree] using ho i rfl
  let s : Spot := ⟨b, prev, next⟩
  let k₀ : Links := { k with spots := k.spots.insert i.index s }
  have hspot₀ (j : InstId) : k₀.spot? j = if j = i then some s else k.spot? j := spot?_insert s
  have hplaced {o : Option InstId} (ho : ∀ j ∈ o, (k.spot? j).isSome) : ∀ j ∈ o, (k₀.spot? j).isSome := by
    intro j hj
    rw [hspot₀]
    split
    · rfl
    · exact ho j hj
  obtain ⟨k₁, hk₁, hspans₁, hspot₁⟩ := modifySpot_ok (f := fun s => { s with next := some i }) (hplaced hprev)
  obtain ⟨k₂, hk₂, hspans₂, hspot₂⟩ :=
    modifySpot_ok (k := k₁) (o := next) (f := fun s => { s with prev := some i }) <| by
    intro j hj
    have := hplaced hnext j hj
    rw [hspot₁]
    split
    · rwa [Option.isSome_map]
    · exact this
  refine ⟨k₂, ?_, hspans₂.trans hspans₁, ?_, fun j hj => ?_⟩
  · unfold join
    simp only [bind_eq_ok]
    exact ⟨_, SideTable.add_eq_ok.mpr ⟨hfree, rfl⟩, k₁, hk₁, hk₂⟩
  · rw [hspot₂, hspot₁, hspot₀, if_neg (hne hnext), if_neg (hne hprev), if_pos rfl]
  · rw [hspot₂, hspot₁, hspot₀, if_neg hj]
    cases k.spot? j <;> by_cases hnext : next = some j <;> by_cases hprev : prev = some j <;> simp [hnext, hprev]

theorem join_eq_error {prev next : Option InstId} (h : (k.spot? i).isSome) :
    k.join i b prev next = .error .duplicateKey := by
  have hcontains : k.spots.contains i.index = true := h
  unfold join SideTable.add
  rw [if_pos hcontains]
  rfl

namespace Linked

theorem join (h : k.Linked ls) (hfree : ¬ IsListed ls i) (hb : ls b = front ++ rest) :
    ∃ k', k.join i b front.getLast? rest.head? = .ok k' ∧ k'.spans = k.spans ∧
      (k'.setSpan b ⟨(front ++ i :: rest).head?, (front ++ i :: rest).getLast?⟩).Linked
        (Function.update ls b (front ++ i :: rest)) := by
  have hmem {j : InstId} (hj : j ∈ front ∨ j ∈ rest) : (k.spot? j).isSome :=
    h.isSome_spot (b := b) (hb ▸ List.mem_append.mpr hj)
  obtain ⟨k', hk', hspans, hi, hspot⟩ := join_ok (b := b) (h.free hfree)
    (fun j hj => hmem (.inl (List.mem_of_getLast? hj))) fun j hj => hmem (.inr (List.mem_of_head? hj))
  have hnodup : (front ++ [i] ++ rest).Nodup := by
    rw [List.append_assoc, List.singleton_append, List.perm_middle.nodup_iff, List.nodup_cons, ← hb]
    exact ⟨fun hi => hfree ⟨b, hi⟩, h.nodup b⟩
  have hs : k.Spliced ls b front [] [i] rest k' :=
    { list := by simpa using hb
      nodup := hnodup
      here := fun j hj c hc => absurd ⟨c, List.mem_singleton.mp hj ▸ hc⟩ hfree
      spans := hspans
      inserted := fun {j mid mid'} heq => by
        obtain ⟨rfl, hcons⟩ | ⟨-, hnil⟩ := List.singleton_eq_append_iff.mp heq
        · obtain ⟨rfl, rfl⟩ := List.cons_eq_cons.mp hcons
          simpa using hi
        · cases hnil
      removed := by simp
      kept := fun j _ hj => by simpa using hspot j (by simpa using hj) }
  refine ⟨k', hk', hspans, ?_⟩
  simpa using hs.linked h

theorem append (h : k.Linked ls) (hfree : ¬ IsListed ls i) :
    ∃ k', k.append i b = .ok k' ∧ k'.Linked (Function.update ls b (ls b ++ [i])) := by
  obtain ⟨k', hk', -, hlinked⟩ := h.join hfree (show ls b = ls b ++ [] from (List.append_nil _).symm)
  refine ⟨_, ?_, hlinked⟩
  unfold Links.append
  simp only [h.span b, bind_eq_ok, pure_eq_ok]
  refine ⟨k', hk', ?_⟩
  simp

theorem prepend (h : k.Linked ls) (hfree : ¬ IsListed ls i) :
    ∃ k', k.prepend i b = .ok k' ∧ k'.Linked (Function.update ls b (i :: ls b)) := by
  obtain ⟨k', hk', -, hlinked⟩ := h.join hfree (show ls b = [] ++ ls b from rfl)
  refine ⟨_, ?_, hlinked⟩
  unfold Links.prepend
  simp only [h.span b, bind_eq_ok, pure_eq_ok]
  refine ⟨k', hk', ?_⟩
  simp [List.getLast?_cons]

theorem insertBefore (h : k.Linked ls) (hj : IsListed ls j) (hfree : ¬ IsListed ls i) :
    ∃ k', k.insertBefore i j = .ok k' ∧ k'.Linked fun b => Layout.putBefore j i (ls b) := by
  obtain ⟨b, hj⟩ := hj
  obtain ⟨front, rest, hb, hfront, -, hspot⟩ := h.exists_spot hj
  obtain ⟨k', hk', hspans, hlinked⟩ := h.join hfree hb
  rw [eq_update_of_unique (fun _ hj' => h.disjoint hj' hj) fun _ => Layout.putBefore_of_notMem, hb,
    Layout.putBefore_append hfront]
  refine ⟨_, ?_, hlinked⟩
  have hspan : k'.span b = k.span b := by
    unfold Links.span
    rw [hspans]
  unfold Links.insertBefore
  simp only [bind_eq_ok, pure_eq_ok, spot_eq_ok]
  refine ⟨_, hspot, k', hk', ?_⟩
  rw [hspan, h.span b, hb, ite_head? hfront]
  simp [List.getLast?_append, List.getLast?_cons]

theorem insertAfter (h : k.Linked ls) (hj : IsListed ls j) (hfree : ¬ IsListed ls i) :
    ∃ k', k.insertAfter i j = .ok k' ∧ k'.Linked fun b => Layout.putAfter j i (ls b) := by
  obtain ⟨b, hj⟩ := hj
  obtain ⟨front, rest, hb, hfront, hrest, hspot⟩ := h.exists_spot hj
  have hb' : ls b = (front ++ [j]) ++ rest := by simp [hb]
  obtain ⟨k', hk', hspans, hlinked⟩ := h.join hfree hb'
  rw [List.getLast?_concat] at hk'
  rw [List.append_assoc, List.singleton_append] at hlinked
  rw [eq_update_of_unique (fun _ hj' => h.disjoint hj' hj) fun _ => Layout.putAfter_of_notMem, hb,
    Layout.putAfter_append hfront]
  refine ⟨_, ?_, hlinked⟩
  have hspan : k'.span b = k.span b := by
    unfold Links.span
    rw [hspans]
  unfold Links.insertAfter
  simp only [bind_eq_ok, pure_eq_ok, spot_eq_ok]
  refine ⟨_, hspot, k', hk', ?_⟩
  rw [hspan, h.span b, hb, ite_getLast? hrest]
  simp [List.getLast?_append, List.getLast?_cons]

end Linked

/-! ## Removing -/

theorem remove_ok {s : Spot} (hi : k.spot? i = some s) (hprev : ∀ j ∈ s.prev, j ≠ i ∧ (k.spot? j).isSome)
    (hnext : ∀ j ∈ s.next, j ≠ i ∧ (k.spot? j).isSome) :
    ∃ k' : Links, k.remove i = .ok (k'.setSpan s.block
        { first := if (k.span s.block).first = some i then s.next else (k.span s.block).first
          last := if (k.span s.block).last = some i then s.prev else (k.span s.block).last }) ∧
      k'.spans = k.spans ∧ k'.spot? i = none ∧
      ∀ j, j ≠ i → k'.spot? j = (k.spot? j).map fun t => { t with
        prev := if s.next = some j then s.prev else t.prev
        next := if s.prev = some j then s.next else t.next } := by
  let k₀ : Links := { k with spots := k.spots.erase i.index }
  have hspot₀ (j : InstId) : k₀.spot? j = if j = i then none else k.spot? j := spot?_erase
  have hplaced {o : Option InstId} (ho : ∀ j ∈ o, j ≠ i ∧ (k.spot? j).isSome) : ∀ j ∈ o, (k₀.spot? j).isSome := by
    intro j hj
    rw [hspot₀, if_neg (ho j hj).1]
    exact (ho j hj).2
  obtain ⟨k₁, hk₁, hspans₁, hspot₁⟩ := modifySpot_ok (f := fun t => { t with prev := s.prev }) (hplaced hnext)
  obtain ⟨k₂, hk₂, hspans₂, hspot₂⟩ :=
    modifySpot_ok (k := k₁) (o := s.prev) (f := fun t => { t with next := s.next }) <| by
    intro j hj
    have := hplaced hprev j hj
    rw [hspot₁]
    split
    · rwa [Option.isSome_map]
    · exact this
  have hspans : k₂.spans = k.spans := hspans₂.trans hspans₁
  refine ⟨k₂, ?_, hspans, ?_, fun j hj => ?_⟩
  · unfold remove
    simp only [bind_eq_ok, orFault_eq_ok, pure_eq_ok]
    refine ⟨s, hi, k₁, hk₁, k₂, hk₂, ?_⟩
    unfold Links.span
    rw [hspans]
  · rw [hspot₂, hspot₁, hspot₀, if_pos rfl]
    split <;> split <;> rfl
  · rw [hspot₂, hspot₁, hspot₀, if_neg hj]
    cases k.spot? j <;> by_cases hnext : s.next = some j <;> by_cases hprev : s.prev = some j <;> simp [hnext, hprev]

namespace Linked

theorem remove (h : k.Linked ls) (hi : i ∈ ls b) :
    ∃ k', k.remove i = .ok k' ∧ k'.Linked (Function.update ls b ((ls b).erase i)) := by
  obtain ⟨front, rest, hb, hfront, hrest, hspot⟩ := h.exists_spot hi
  have hmem {j : InstId} (hj : j ∈ front ∨ j ∈ rest) : j ≠ i ∧ (k.spot? j).isSome := by
    refine ⟨?_, h.isSome_spot (b := b) ?_⟩
    · rintro rfl
      exact hj.elim hfront hrest
    · rw [hb]
      exact List.mem_append.mpr (hj.imp_right (List.mem_cons_of_mem _))
  obtain ⟨k', hk', hspans, hnone, hother⟩ := remove_ok hspot (fun j hj => hmem (.inl (List.mem_of_getLast? hj)))
    fun j hj => hmem (.inr (List.mem_of_head? hj))
  have hnodup : (front ++ [] ++ rest).Nodup := by
    rw [List.append_nil]
    exact (List.perm_middle.nodup_iff.mp (hb ▸ h.nodup b)).of_cons
  have hs : k.Spliced ls b front [i] [] rest k' :=
    { list := by simpa using hb
      nodup := hnodup
      here := by simp
      spans := hspans
      inserted := by simp
      removed := fun j hj _ => List.mem_singleton.mp hj ▸ hnone
      kept := fun j hj _ => by simpa using hother j (by simpa using hj) }
  have herase : (ls b).erase i = front ++ [] ++ rest := by
    rw [hb, List.erase_append_right _ hfront, List.erase_cons_head, List.append_nil]
  refine ⟨_, hk', ?_⟩
  rw [herase]
  convert hs.linked h using 2
  rw [h.span b, hb, ite_head? hfront, ite_getLast? hrest]
  simp [List.getLast?_append]

/-! ## Walking -/

theorem follow (h : k.Linked ls) (hb : ls b = front ++ rest) {n : Nat} (hn : rest.length ≤ n) :
    k.follow n rest.head? = .ok rest := by
  induction rest generalizing front n with
  | nil =>
    unfold Links.follow
    rfl
  | cons i rest ih =>
    obtain ⟨n, rfl⟩ := Nat.exists_eq_succ_of_ne_zero (Nat.ne_of_gt (Nat.lt_of_lt_of_le (Nat.succ_pos _) hn))
    rw [List.head?_cons, Links.follow]
    simp only [bind_eq_ok, pure_eq_ok, Links.next, spot_eq_ok]
    exact ⟨_, ⟨_, h.spot hb, rfl⟩, rest, ih (show _ = front ++ [i] ++ rest by simp [hb]) (Nat.le_of_succ_le_succ hn),
      rfl⟩

theorem insts (h : k.Linked ls) (b : BlockId) : k.insts b = .ok (ls b) := by
  have hlt (i : InstId) (hi : i ∈ ls b) : i.index < k.spots.slots.size := by
    have hsome := h.isSome_spot hi
    by_contra hge
    rw [spot?, SideTable.get?, Array.getElem?_eq_none (Nat.not_lt.mp hge)] at hsome
    cases hsome
  have hsub : (ls b).map InstId.index ⊆ List.range k.spots.slots.size := by
    simpa [List.subset_def] using hlt
  have hnodup : ((ls b).map InstId.index).Nodup := List.Nodup.map (fun _ _ => InstId.index_inj.mp) (h.nodup b)
  have hle := (List.subperm_of_subset hnodup hsub).length_le
  have hfirst : k.first? b = (ls b).head? := by rw [Links.first?, h.span b]
  rw [Links.insts, hfirst]
  exact h.follow (show ls b = [] ++ ls b from rfl) (by simpa using hle)

/-! ## Moving the instructions of a block -/

theorem shift (h : k.Linked ls) (target : BlockId) {todo kept : List InstId} {source : BlockId}
    (hs : ls source = todo ++ kept) :
    ∃ k', todo.foldlM (fun k i => do (← k.remove i).append i target) k = .ok k' ∧ k'.Linked
      (Function.update (Function.update ls source kept) target (Function.update ls source kept target ++ todo)) := by
  induction todo generalizing k ls kept with
  | nil =>
    refine ⟨k, rfl, ?_⟩
    rw [List.append_nil, Function.update_eq_self, ← List.nil_append kept, ← hs, Function.update_eq_self]
    exact h
  | cons i todo ih =>
    obtain ⟨k₁, hk₁, h₁⟩ := h.remove (b := source) (i := i) (by simp [hs])
    rw [hs, List.cons_append, List.erase_cons_head] at h₁
    have hfree : ¬ IsListed (Function.update ls source (todo ++ kept)) i := by
      have hcons : (i :: (todo ++ kept)).Nodup := by
        have := h.nodup source
        rwa [hs] at this
      rintro ⟨c, hi⟩
      by_cases hc : c = source
      · rw [hc, Function.update_self] at hi
        exact (List.nodup_cons.mp hcons).1 hi
      · rw [Function.update_of_ne hc] at hi
        exact hc (h.disjoint hi (b := c) (c := source) (by simp [hs]))
    obtain ⟨k₂, hk₂, h₂⟩ := h₁.append (b := target) hfree
    -- what is kept grows at its end if the block is moved into itself
    by_cases hst : target = source
    · subst hst
      simp only [Function.update_self, Function.update_idem] at h₂ ⊢
      obtain ⟨k', hk', h'⟩ := ih h₂ (show _ = todo ++ (kept ++ [i]) by simp)
      refine ⟨k', ?_, by simpa using h'⟩
      rw [List.foldlM_cons]
      simp only [bind_eq_ok]
      exact ⟨k₂, ⟨k₁, hk₁, hk₂⟩, hk'⟩
    · obtain ⟨k', hk', h'⟩ := ih h₂ (show _ = todo ++ kept by simp [Function.update_of_ne (Ne.symm hst)])
      refine ⟨k', ?_, ?_⟩
      · rw [List.foldlM_cons]
        simp only [bind_eq_ok]
        exact ⟨k₂, ⟨k₁, hk₁, hk₂⟩, hk'⟩
      · convert h' using 1
        funext c
        by_cases hc : c = target
        · subst hc
          simp [Function.update_of_ne hst]
        · by_cases hcs : c = source
          · subst hcs
            simp [Function.update_of_ne hc]
          · simp [Function.update_of_ne hc, Function.update_of_ne hcs]

theorem moveAll (h : k.Linked ls) (source target : BlockId) :
    ∃ k', k.moveAll source target = .ok k' ∧ k'.Linked (Rearrangement.onLists ls (.moveAll source target)) := by
  obtain ⟨k', hk', h'⟩ := h.shift target (show ls source = ls source ++ [] from (List.append_nil _).symm)
  refine ⟨k', ?_, ?_⟩
  · unfold Links.moveAll
    simp only [bind_eq_ok]
    exact ⟨_, h.insts source, hk'⟩
  · convert h' using 1
    show (if source = target then _ else _) = _
    split
    case isTrue hst => simp [hst]
    case isFalse hst =>
      funext c
      by_cases hc : c = target
      · subst hc
        simp [Function.update_of_ne (Ne.symm hst)]
      · by_cases hcs : c = source
        · subst hcs
          simp [Function.update_of_ne hc]
        · simp [Function.update_of_ne hc, Function.update_of_ne hcs]

end Linked

/-! ## What links tell -/

/-- What is read off the links is what the lists say. -/
structure Represents (k : Links) (ls : BlockId → List InstId) : Prop where
  nodup : ∀ b, (ls b).Nodup
  disjoint : ∀ b c i, i ∈ ls b → i ∈ ls c → b = c
  walk : ∀ b, k.insts b = .ok (ls b)
  first : ∀ b, k.first? b = (ls b).head?
  last : ∀ b, k.last? b = (ls b).getLast?
  home : ∀ i b, k.home? i = some b ↔ i ∈ ls b
  neighbours : ∀ b front i rest, ls b = front ++ i :: rest → k.prev i = .ok front.getLast? ∧ k.next i = .ok rest.head?
  inverse : ∀ i j, k.next i = .ok (some j) ↔ k.prev j = .ok (some i)

/-- The links and the layout give the same answers. -/
structure Agrees (k : Links) (l : Layout) : Prop where
  insts : ∀ b, k.insts b = .ok (l.insts b)
  first : ∀ b, k.first? b = l.first? b
  last : ∀ b, k.last? b = l.last? b
  home : ∀ i, k.home? i = l.home? i
  prev : ∀ i, k.prev i = l.prev i
  next : ∀ i, k.next i = l.next i

namespace Linked

theorem prev_next (h : k.Linked ls) (hb : ls b = front ++ i :: rest) :
    k.prev i = .ok front.getLast? ∧ k.next i = .ok rest.head? := by
  unfold Links.prev Links.next
  simp only [bind_eq_ok, pure_eq_ok, spot_eq_ok]
  exact ⟨⟨_, h.spot hb, rfl⟩, _, h.spot hb, rfl⟩

theorem placed_of_spot (h : k.Linked ls) {s : Spot} (hs : k.spot i = .ok s) : IsListed ls i := by
  by_contra hfree
  rw [spot_eq_ok, h.free hfree] at hs
  cases hs

theorem next_eq_ok (h : k.Linked ls) : k.next i = .ok (some j) ↔ ∃ b front rest, ls b = front ++ i :: j :: rest := by
  constructor
  · intro hnext
    have hplaced : IsListed ls i := by
      obtain ⟨s, hs, -⟩ := bind_eq_ok.mp hnext
      exact h.placed_of_spot hs
    obtain ⟨b, hi⟩ := hplaced
    obtain ⟨front, rest, hb⟩ := List.append_of_mem hi
    obtain ⟨rest', rfl⟩ := List.head?_eq_some_iff.mp (Except.ok.inj ((h.prev_next hb).2.symm.trans hnext))
    exact ⟨b, front, rest', hb⟩
  · rintro ⟨b, front, rest, hb⟩
    exact (h.prev_next hb).2

theorem prev_eq_ok (h : k.Linked ls) : k.prev j = .ok (some i) ↔ ∃ b front rest, ls b = front ++ i :: j :: rest := by
  constructor
  · intro hprev
    have hplaced : IsListed ls j := by
      obtain ⟨s, hs, -⟩ := bind_eq_ok.mp hprev
      exact h.placed_of_spot hs
    obtain ⟨b, hj⟩ := hplaced
    obtain ⟨front, rest, hb⟩ := List.append_of_mem hj
    obtain ⟨front', rfl⟩ := List.getLast?_eq_some_iff.mp (Except.ok.inj ((h.prev_next hb).1.symm.trans hprev))
    exact ⟨b, front', rest, by simpa using hb⟩
  · rintro ⟨b, front, rest, hb⟩
    simpa using (h.prev_next (show ls b = front ++ [i] ++ j :: rest by simpa using hb)).1

theorem home?_eq_some (h : k.Linked ls) : k.home? i = some b ↔ i ∈ ls b := by
  have hhome : k.home? i = (k.spot? i).map Spot.block := rfl
  constructor
  · intro hi
    obtain ⟨s, hs, rfl⟩ := Option.map_eq_some_iff.mp hi
    obtain ⟨b, hmem⟩ := h.placed_of_spot (spot_eq_ok.mpr hs)
    obtain ⟨front, rest, -, -, -, hspot⟩ := h.exists_spot hmem
    obtain rfl := Option.some_inj.mp (hs.symm.trans hspot)
    exact hmem
  · intro hi
    obtain ⟨front, rest, -, -, -, hspot⟩ := h.exists_spot hi
    rw [hhome, hspot]
    rfl

theorem represents (h : k.Linked ls) : k.Represents ls where
  nodup := h.nodup
  disjoint := fun _ _ _ => h.disjoint
  walk := h.insts
  first := fun b => by rw [Links.first?, h.span b]
  last := fun b => by rw [Links.last?, h.span b]
  home := fun _ _ => h.home?_eq_some
  neighbours := fun _ _ _ _ => h.prev_next
  inverse := fun _ _ => h.next_eq_ok.trans h.prev_eq_ok.symm

theorem agrees {l : Layout} (h : k.Linked l.insts) (hl : l.Sound) : k.Agrees l where
  insts := h.insts
  first := h.represents.first
  last := h.represents.last
  home := fun i => Option.ext fun b => h.home?_eq_some.trans hl.mem_iff
  prev := fun i => by
    by_cases hi : IsListed l.insts i
    · obtain ⟨b, hi⟩ := hi
      obtain ⟨front, rest, hb, hfront, -⟩ := h.exists_spot hi
      rw [(h.prev_next hb).1, eq_comm]
      unfold Layout.prev Layout.before
      simp only [bind_eq_ok, pure_eq_ok, Layout.home_eq_ok]
      refine ⟨front, ⟨b, hl.mem_iff.mp hi, ?_⟩, rfl⟩
      have hne : ∀ x ∈ front, (x != i) = true := fun x hx => bne_iff_ne.mpr fun heq => hfront (heq ▸ hx)
      rw [hb, List.takeWhile_append_of_pos hne]
      simp
    · unfold Links.prev Layout.prev Layout.before
      rw [spot_eq_error (h.free hi), Layout.home_eq_error (hl.home?_eq_none hi)]
      rfl
  next := fun i => by
    by_cases hi : IsListed l.insts i
    · obtain ⟨b, hi⟩ := hi
      obtain ⟨front, rest, hb⟩ := List.append_of_mem hi
      rw [(h.prev_next hb).2, eq_comm]
      unfold Layout.next
      simp only [bind_eq_ok, pure_eq_ok, hl.after_eq_ok]
      exact ⟨rest, ⟨b, front, hb⟩, rfl⟩
    · unfold Links.next Layout.next Layout.after
      rw [spot_eq_error (h.free hi), Layout.home_eq_error (hl.home?_eq_none hi)]
      rfl

end Linked

end Links

/-! ## Runs -/

namespace Rearrangement

theorem ok_bind {α β : Type} (a : α) (f : α → Except Fault β) : (.ok a >>= f) = f a := rfl

variable {k : Links} {l : Layout} {r : Rearrangement} {e : Fault}

theorem onLinks_refused (h : k.Linked ls) (hr : Refused ls r e) : r.onLinks k = .error e := by
  have hplaced {i : InstId} : IsListed ls i → (k.spot? i).isSome := fun ⟨_, hi⟩ => h.isSome_spot hi
  cases hr with
  | append hi | prepend hi =>
    simp only [onLinks, Links.append, Links.prepend, Links.join_eq_error (hplaced hi)]
    rfl
  | beforeNothing hj | behindNothing hj =>
    simp only [onLinks, Links.insertBefore, Links.insertAfter, Links.spot_eq_error (h.free hj)]
    rfl
  | insertBefore hj hi | insertAfter hj hi =>
    obtain ⟨s, hs⟩ := Option.isSome_iff_exists.mp (hplaced hj)
    simp only [onLinks, Links.insertBefore, Links.insertAfter, Links.spot_eq_ok.mpr hs, ok_bind,
      Links.join_eq_error (hplaced hi)]
    rfl
  | remove hi =>
    have hnone : k.spots.get? _ = none := h.free hi
    simp only [onLinks, Links.remove, hnone]
    rfl

theorem onLinks_ok (h : k.Linked ls) (hr : ∀ e, ¬ Refused ls r e) :
    ∃ k', r.onLinks k = .ok k' ∧ k'.Linked (r.onLists ls) := by
  cases r with
  | append i b => exact h.append fun hi => hr _ (.append hi)
  | prepend i b => exact h.prepend fun hi => hr _ (.prepend hi)
  | insertBefore i j =>
    have hj : IsListed ls j := Classical.byContradiction fun hj => hr _ (.beforeNothing hj)
    exact h.insertBefore hj fun hi => hr _ (.insertBefore hj hi)
  | insertAfter i j =>
    have hj : IsListed ls j := Classical.byContradiction fun hj => hr _ (.behindNothing hj)
    exact h.insertAfter hj fun hi => hr _ (.insertAfter hj hi)
  | remove i =>
    obtain ⟨b, hi⟩ : IsListed ls i := Classical.byContradiction fun hi => hr _ (.remove hi)
    obtain ⟨k', hk', h'⟩ := h.remove hi
    refine ⟨k', hk', ?_⟩
    rw [← eq_update_of_unique (fun _ hi' => h.disjoint hi' hi) fun _ => List.erase_of_not_mem] at h'
    exact h'
  | moveAll source target => exact h.moveAll source target

theorem onLayout_refused (hl : l.Sound) (hr : Refused l.insts r e) : r.onLayout l = .error e := by
  cases hr with
  | append hi | prepend hi =>
    obtain ⟨c, hc⟩ := hl.placed_iff.mp hi
    simp only [onLayout, Layout.append, Layout.prepend, Layout.settle_eq_error hc]
    rfl
  | beforeNothing hj | behindNothing hj =>
    simp only [onLayout, Layout.insertBefore, Layout.insertAfter, Layout.home_eq_error (hl.home?_eq_none hj)]
    rfl
  | insertBefore hj hi | insertAfter hj hi =>
    obtain ⟨b, hb⟩ := hl.placed_iff.mp hj
    obtain ⟨c, hc⟩ := hl.placed_iff.mp hi
    simp only [onLayout, Layout.insertBefore, Layout.insertAfter, Layout.home_eq_ok.mpr hb, ok_bind,
      Layout.settle_eq_error hc]
    rfl
  | remove hi =>
    have hnone : l.homes.get? _ = none := hl.home?_eq_none hi
    simp only [onLayout, Layout.remove, hnone]
    rfl

theorem onLayout_ok (hl : l.Sound) (hr : ∀ e, ¬ Refused l.insts r e) :
    ∃ l', r.onLayout l = .ok l' ∧ l'.Sound ∧ l'.insts = r.onLists l.insts := by
  cases r with
  | append i b =>
    have hfree := hl.home?_eq_none fun hi => hr _ (.append hi)
    exact ⟨_, Layout.append_eq_ok.mpr ⟨hfree, rfl⟩, hl.place hfree (List.perm_append_singleton _ _),
      Layout.insts_place_eq_update _⟩
  | prepend i b =>
    have hfree := hl.home?_eq_none fun hi => hr _ (.prepend hi)
    exact ⟨_, Layout.prepend_eq_ok.mpr ⟨hfree, rfl⟩, hl.place hfree (List.Perm.refl _), Layout.insts_place_eq_update _⟩
  | insertBefore i j =>
    obtain ⟨b, hj⟩ : IsListed l.insts j := Classical.byContradiction fun hj => hr _ (.beforeNothing hj)
    have hfree := hl.home?_eq_none fun hi => hr _ (.insertBefore ⟨b, hj⟩ hi)
    refine ⟨_, Layout.insertBefore_eq_ok.mpr ⟨b, hl.mem_iff.mp hj, hfree, rfl⟩,
      hl.place hfree (Layout.putBefore_perm hj), ?_⟩
    rw [Layout.insts_place_eq_update]
    exact (eq_update_of_unique (fun _ hj' => hl.block_unique hj' hj) fun _ => Layout.putBefore_of_notMem).symm
  | insertAfter i j =>
    obtain ⟨b, hj⟩ : IsListed l.insts j := Classical.byContradiction fun hj => hr _ (.behindNothing hj)
    have hfree := hl.home?_eq_none fun hi => hr _ (.insertAfter ⟨b, hj⟩ hi)
    refine ⟨_, Layout.insertAfter_eq_ok.mpr ⟨b, hl.mem_iff.mp hj, hfree, rfl⟩, hl.place hfree (Layout.putAfter_perm hj),
      ?_⟩
    rw [Layout.insts_place_eq_update]
    exact (eq_update_of_unique (fun _ hj' => hl.block_unique hj' hj) fun _ => Layout.putAfter_of_notMem).symm
  | remove i =>
    obtain ⟨b, hi⟩ : IsListed l.insts i := Classical.byContradiction fun hi => hr _ (.remove hi)
    have hb := hl.mem_iff.mp hi
    refine ⟨_, Layout.remove_eq_ok.mpr ⟨b, hb, rfl⟩, hl.unplace hb, ?_⟩
    rw [Layout.insts_unplace_eq_update]
    exact (eq_update_of_unique (fun _ hi' => hl.block_unique hi' hi) fun _ => List.erase_of_not_mem).symm
  | moveAll source target =>
    refine ⟨_, rfl, hl.moveAll, ?_⟩
    show _ = if source = target then _ else _
    split
    case isTrue hst => rw [Layout.moveAll, if_pos hst]
    case isFalse hst =>
      funext c
      rw [Layout.insts_moveAll hst, Function.update_apply, Function.update_apply]

theorem listsAfter_concat (steps : List Rearrangement) (r : Rearrangement) :
    listsAfter (steps ++ [r]) = r.onLists (listsAfter steps) := by
  simp [listsAfter]

theorem run_cases (steps : List Rearrangement) :
    (∃ k l, steps.foldlM onLinks {} = .ok k ∧ steps.foldlM onLayout {} = .ok l ∧ k.Linked (listsAfter steps) ∧ l.Sound ∧
      l.insts = listsAfter steps) ∨
    ∃ done r todo e, steps = done ++ r :: todo ∧ Refused (listsAfter done) r e ∧
      steps.foldlM onLinks {} = .error e ∧ steps.foldlM onLayout {} = .error e := by
  induction steps using List.reverseRecOn with
  | nil =>
    refine .inl ⟨{}, {}, rfl, rfl, .empty, .empty, ?_⟩
    funext b
    simp [Layout.insts, SideTable.get?, listsAfter]
  | append_singleton steps r ih =>
    rw [List.foldlM_append, List.foldlM_append]
    obtain ⟨k, l, hk, hl, hlinked, hsound, hinsts⟩ | ⟨done, r', todo, e, rfl, hr, hk, hl⟩ := ih
    · rw [hk, hl]
      simp only [ok_bind, List.foldlM_cons, List.foldlM_nil, bind_pure]
      by_cases hr : ∃ e, Refused (listsAfter steps) r e
      · obtain ⟨e, hr⟩ := hr
        exact .inr ⟨steps, r, [], e, rfl, hr, onLinks_refused hlinked hr, onLayout_refused hsound (hinsts ▸ hr)⟩
      · have hnot : ∀ e, ¬ Refused (listsAfter steps) r e := fun e he => hr ⟨e, he⟩
        obtain ⟨k', hk', hlinked'⟩ := onLinks_ok hlinked hnot
        obtain ⟨l', hl', hsound', hinsts'⟩ := onLayout_ok hsound (hinsts ▸ hnot)
        rw [listsAfter_concat]
        exact .inl ⟨k', l', hk', hl', hlinked', hsound', hinsts ▸ hinsts'⟩
    · rw [hk, hl]
      exact .inr ⟨done, r', todo ++ [r], e, by simp, hr, rfl, rfl⟩

/-- Whatever is done to links that are empty at first, they hold the lists that it leaves, and so does a layout. Both
stop, with the same fault, at the first rearrangement that the lists refuse. -/
theorem links_hold_lists (steps : List Rearrangement) :
    (∃ k l, steps.foldlM onLinks {} = .ok k ∧ steps.foldlM onLayout {} = .ok l ∧ k.Represents (listsAfter steps) ∧
      l.insts = listsAfter steps ∧ k.Agrees l) ∨
    ∃ done r todo e, steps = done ++ r :: todo ∧ Refused (listsAfter done) r e ∧
      steps.foldlM onLinks {} = .error e ∧ steps.foldlM onLayout {} = .error e := by
  refine (run_cases steps).imp_left ?_
  rintro ⟨k, l, hk, hl, hlinked, hsound, hinsts⟩
  exact ⟨k, l, hk, hl, hlinked.represents, hinsts, Links.Linked.agrees (hinsts ▸ hlinked) hsound⟩

end Rearrangement

end Midend
