import Mathlib.Algebra.BigOperators.Intervals
import Mathlib.Logic.Relation
import Midend.Flow.Loops

/-! # The dominator tree

What the computed tree says about paths. A block that no path to another one can avoid is above it in the
tree, and the blocks between a predecessor of a meeting point and the dominator of that point have the point
in their frontier.
-/

/-! ## Reachability is what it says

The search from a start finds exactly what steps lead to.
-/

namespace Midend.Flow

open Relation

variable {next : Nat → List Nat} {size : Nat}

def Neighbour (next : Nat → List Nat) (x y : Nat) : Prop := y ∈ next x

theorem explore_sound {steps : Nat} {todo seen : List Nat} {x : Nat} (h : x ∈ explore next steps todo seen) :
    x ∈ seen ∨ ∃ t ∈ todo, ReflTransGen (Neighbour next) t x := by
  fun_induction explore next steps todo seen with
  | case1 => exact .inl h
  | case2 => exact .inl h
  | case3 steps t todo seen hseen ih =>
    obtain hx | ⟨u, hu, hux⟩ := ih h
    · exact .inl hx
    · exact .inr ⟨u, List.mem_cons_of_mem t hu, hux⟩
  | case4 steps t todo seen hnew ih =>
    obtain hx | ⟨u, hu, hux⟩ := ih h
    · obtain rfl | hx := List.mem_cons.mp hx
      · exact .inr ⟨x, List.mem_cons_self, .refl⟩
      · exact .inl hx
    · obtain hu | hu := List.mem_append.mp hu
      · exact .inr ⟨t, List.mem_cons_self, hux.head hu⟩
      · exact .inr ⟨u, List.mem_cons_of_mem t hu, hux⟩

/-- The neighbours of the numbers that have not been expanded yet. -/
def owed (size : Nat) (next : Nat → List Nat) (seen : List Nat) : Nat :=
  ∑ x ∈ (Finset.range size).filter (· ∉ seen), (next x).length

theorem owed_cons {seen : List Nat} {x : Nat} (hx : x < size) (hnew : x ∉ seen) :
    (next x).length + owed size next (x :: seen) = owed size next seen := by
  unfold owed
  have hmem : x ∈ (Finset.range size).filter (· ∉ seen) := by simp [hx, hnew]
  rw [← Finset.add_sum_erase _ _ hmem]
  congr 2
  ext y
  simp only [Finset.mem_filter, Finset.mem_range, List.mem_cons, Finset.mem_erase]
  tauto

theorem owed_nil : owed size next [] = (List.range size).foldl (fun n x => n + (next x).length) 0 := by
  unfold owed
  simp only [List.not_mem_nil, not_false_eq_true, Finset.filter_true]
  induction size with
  | zero => rfl
  | succ n ih => rw [List.range_succ, List.foldl_append, Finset.sum_range_succ, ih, List.foldl_cons, List.foldl_nil]

theorem explore_closed (hnext : ∀ x < size, ∀ y ∈ next x, y < size) {steps : Nat} {todo seen : List Nat}
    (hsteps : todo.length + owed size next seen ≤ steps) (htodo : ∀ t ∈ todo, t < size)
    (hseen : ∀ x ∈ seen, ∀ y ∈ next x, y ∈ seen ∨ y ∈ todo) :
    (∀ x ∈ seen ++ todo, x ∈ explore next steps todo seen) ∧
      ∀ x ∈ explore next steps todo seen, ∀ y ∈ next x, y ∈ explore next steps todo seen := by
  fun_induction explore next steps todo seen with
  | case1 todo seen =>
    obtain rfl : todo = [] := List.eq_nil_of_length_eq_zero (by omega)
    simpa using hseen
  | case2 => simpa using hseen
  | case3 steps t todo seen ht ih =>
    have hrest : ∀ x ∈ seen, ∀ y ∈ next x, y ∈ seen ∨ y ∈ todo := by
      intro x hx y hy
      obtain hy | hy := hseen x hx y hy
      · exact .inl hy
      · obtain rfl | hy := List.mem_cons.mp hy
        · exact .inl ht
        · exact .inr hy
    obtain ⟨hall, hclosed⟩ := ih (by simp at hsteps; omega) (fun u hu => htodo u (by simp [hu])) hrest
    refine ⟨fun x hx => hall x ?_, hclosed⟩
    simp only [List.mem_append, List.mem_cons] at hx ⊢
    obtain hx | rfl | hx := hx <;> simp [*]
  | case4 steps t todo seen hnew ih =>
    have ht : t < size := htodo t List.mem_cons_self
    have howed : (next t).length + owed size next (t :: seen) = owed size next seen := owed_cons ht hnew
    have hrest : ∀ x ∈ t :: seen, ∀ y ∈ next x, y ∈ t :: seen ∨ y ∈ next t ++ todo := by
      intro x hx y hy
      obtain rfl | hx := List.mem_cons.mp hx
      · exact .inr (List.mem_append_left _ hy)
      · have := hseen x hx y hy
        simp only [List.mem_cons, List.mem_append] at this ⊢
        tauto
    have htodo' : ∀ u ∈ next t ++ todo, u < size := by
      intro u hu
      obtain hu | hu := List.mem_append.mp hu
      · exact hnext t ht u hu
      · exact htodo u (List.mem_cons_of_mem t hu)
    obtain ⟨hall, hclosed⟩ := ih (by simp at hsteps ⊢; omega) htodo' hrest
    refine ⟨fun x hx => hall x ?_, hclosed⟩
    simp only [List.mem_append, List.mem_cons] at hx ⊢
    tauto

theorem mem_reachable_iff (hnext : ∀ x < size, ∀ y ∈ next x, y < size) {start : Nat} (hstart : start < size)
    {x : Nat} : x ∈ reachable size next start ↔ ReflTransGen (Neighbour next) start x := by
  have hsteps : [start].length + owed size next [] ≤ owed size next [] + 1 := by simp; omega
  have hclosed := explore_closed hnext hsteps (by simpa using hstart) (by simp)
  unfold reachable
  rw [← owed_nil]
  constructor
  · intro hx
    obtain hx | ⟨t, ht, htx⟩ := explore_sound hx
    · simp at hx
    · rwa [List.mem_singleton.mp ht] at htx
  · intro hx
    induction hx with
    | refl => exact hclosed.1 start (by simp)
    | tail _ hy ih => exact hclosed.2 _ ih _ hy

end Midend.Flow

namespace Midend.Flow

open Relation

variable {preds : Array (List Nat)} {parents up : Array (Option Nat)} {a b d e p x y : Nat}

/-! ## Trees of numbers -/

def Up (up : Array (Option Nat)) (x y : Nat) : Prop := (up[x]?).join = some y

abbrev Above (up : Array (Option Nat)) : Nat → Nat → Prop := ReflTransGen (Up up)

theorem Up.unique (hx : Up up x a) (hy : Up up x b) : a = b := by
  unfold Up at hx hy
  simpa [hx] using hy

def Falling (up : Array (Option Nat)) : Prop := ∀ x y, Up up x y → y < x

theorem Falling.le (hf : Falling up) (h : Above up x y) : y ≤ x := by
  induction h with
  | refl => exact Nat.le_refl x
  | tail _ hz ih => exact Nat.le_trans (Nat.le_of_lt (hf _ _ hz)) ih

theorem Falling.lt (hf : Falling up) (h : Above up x y) (hne : x ≠ y) : y < x :=
  Nat.lt_of_le_of_ne (hf.le h) (Ne.symm hne)

theorem Above.total (hx : Above up b x) (hy : Above up b y) : Above up x y ∨ Above up y x :=
  ReflTransGen.total_of_right_unique (fun _ _ _ h h' => Up.unique h h') hx hy

/-- Every number but the entry was discovered from one of its predecessors, which has a smaller number. -/
structure Rooted (preds : Array (List Nat)) (parents : Array (Option Nat)) : Prop where
  bounded : ∀ b, ∀ p ∈ preds.getD b [], p < preds.size
  parent : ∀ b, 0 < b → b < preds.size → ∃ p, Up parents b p
  parent_lt : Falling parents
  parent_mem : ∀ b p, Up parents b p → p ∈ preds.getD b []

/-! ## Paths past a block -/

/-- Some path leads from the entry to `b` without passing `a`, which is not `b`. -/
def avoidable (preds : Array (List Nat)) (a b : Nat) : Bool :=
  0 ∈ reachable preds.size (predsAvoiding preds a) b

/-- The first of `a` and its ancestors that cannot be avoided on the way to `b`. Parents have smaller
numbers, so `a` steps reach the entry, which nothing can avoid. -/
def nearestDominator (preds : Array (List Nat)) (parents : Array (Option Nat)) (b : Nat) : Nat → Nat → Nat
  | 0, _ => 0
  | steps + 1, a =>
    if avoidable preds a b then
      nearestDominator preds parents b steps (((parents[a]?).join).getD 0)
    else a

/-- The immediate dominators of all blocks, each found by taking out the blocks above it one by one. -/
def idoms (preds : Array (List Nat)) (parents : Array (Option Nat)) : Array (Option Nat) :=
  (Array.range preds.size).map fun b =>
    ((parents[b]?).join).map fun p => nearestDominator preds parents b b p

/-- Some path leads from the entry to `b` and does not pass `a` on the way. -/
def Escapes (preds : Array (List Nat)) (a b : Nat) : Prop :=
  ReflTransGen (Neighbour (predsAvoiding preds a)) b 0

theorem mem_predsAvoiding : p ∈ predsAvoiding preds a b ↔ p ∈ preds.getD b [] ∧ p ≠ a := by
  simp [predsAvoiding]

theorem Escapes.of_pred (h : Escapes preds a p) (hp : p ∈ preds.getD b []) (hne : p ≠ a) :
    Escapes preds a b :=
  ReflTransGen.head (mem_predsAvoiding.mpr ⟨hp, hne⟩) h

theorem Escapes.cases_pred (h : Escapes preds a b) :
    b = 0 ∨ ∃ p ∈ preds.getD b [], p ≠ a ∧ Escapes preds a p := by
  obtain rfl | ⟨p, hp, h⟩ := h.cases_head
  · exact .inl rfl
  · obtain ⟨hp, hne⟩ := mem_predsAvoiding.mp hp
    exact .inr ⟨p, hp, hne, h⟩

theorem not_escapes_entry (hb : b ≠ 0) : ¬ Escapes preds 0 b := by
  intro h
  obtain h | ⟨p, -, hp⟩ := h.cases_tail
  · exact hb h.symm
  · exact (mem_predsAvoiding.mp hp).2 rfl

theorem up_idoms_iff : Up (idoms preds parents) b d ↔
    b < preds.size ∧ ∃ p, Up parents b p ∧ nearestDominator preds parents b b p = d := by
  unfold Up idoms
  by_cases hb : b < preds.size
  · simp [hb]
  · simp [hb]

namespace Rooted

variable (hr : Rooted preds parents)

include hr

theorem avoidable_iff (hb : b < preds.size) : avoidable preds a b = true ↔ Escapes preds a b := by
  have hnext : ∀ x < preds.size, ∀ y ∈ predsAvoiding preds a x, y < preds.size := fun x _ y hy =>
    hr.bounded x y (mem_predsAvoiding.mp hy).1
  unfold avoidable
  rw [decide_eq_true_iff, mem_reachable_iff hnext hb, Escapes]

theorem above_of_not_escapes (hb : b < preds.size) (h : ¬ Escapes preds a b) : Above parents b a := by
  induction b using Nat.strong_induction_on with
  | _ b ih =>
    rcases Nat.eq_zero_or_pos b with rfl | hpos
    · exact absurd .refl h
    · obtain ⟨p, hp⟩ := hr.parent b hpos hb
      have hlt : p < b := hr.parent_lt b p hp
      by_cases hpa : p = a
      · subst hpa
        exact .single hp
      · have hesc : ¬ Escapes preds a p := fun h' => h (h'.of_pred (hr.parent_mem b p hp) hpa)
        exact ReflTransGen.head hp (ih p hlt (by omega) hesc)

theorem escapes_of_above (h : Escapes preds a d) (hb : Above parents b d) (had : a < d) :
    Escapes preds a b := by
  induction hb using ReflTransGen.head_induction_on with
  | refl => exact h
  | head hstep habove ih =>
    have hle := hr.parent_lt.le habove
    exact ih.of_pred (hr.parent_mem _ _ hstep) (by omega)

/-! ## Immediate dominators -/

theorem nearestDominator_spec (hb : b < preds.size) (hpos : b ≠ 0) {steps : Nat} (ha : a < steps)
    (hab : a < preds.size) (hd : nearestDominator preds parents b steps a = d) :
    Above parents a d ∧ ¬ Escapes preds d b ∧
      ∀ e, Above parents a e → ¬ Escapes preds e b → Above parents d e := by
  induction steps generalizing a with
  | zero => omega
  | succ steps ih =>
    unfold nearestDominator at hd
    split at hd
    case isTrue hav =>
      have hesc : Escapes preds a b := (hr.avoidable_iff hb).mp hav
      have hapos : 0 < a := by
        rcases Nat.eq_zero_or_pos a with rfl | h
        · exact absurd hesc (not_escapes_entry hpos)
        · exact h
      obtain ⟨q, hq⟩ := hr.parent a hapos hab
      have hlt : q < a := hr.parent_lt a q hq
      have hq' : ((parents[a]?).join).getD 0 = q := by rw [hq, Option.getD_some]
      rw [hq'] at hd
      obtain ⟨habove, hdom, hnear⟩ := ih (by omega) (by omega) hd
      refine ⟨habove.head hq, hdom, fun e hae hedom => ?_⟩
      obtain rfl | ⟨z, hz, hze⟩ := hae.cases_head
      · exact absurd hesc hedom
      · obtain rfl := Up.unique hq hz
        exact hnear e hze hedom
    case isFalse hav =>
      subst hd
      exact ⟨.refl, fun h => hav ((hr.avoidable_iff hb).mpr h), fun e hae _ => hae⟩

theorem idom_spec (h : Up (idoms preds parents) b d) : d < b ∧ Above parents b d ∧ ¬ Escapes preds d b ∧
    ∀ e, e ≠ b → ¬ Escapes preds e b → Above parents d e := by
  obtain ⟨hb, p, hp, hd⟩ := up_idoms_iff.mp h
  have hlt : p < b := hr.parent_lt b p hp
  obtain ⟨habove, hdom, hnear⟩ := hr.nearestDominator_spec hb (by omega) hlt (by omega) hd
  refine ⟨Nat.lt_of_le_of_lt (hr.parent_lt.le habove) hlt, habove.head hp, hdom, fun e hne he => ?_⟩
  obtain rfl | ⟨z, hz, hze⟩ := (hr.above_of_not_escapes hb he).cases_head
  · exact absurd rfl hne
  · obtain rfl := Up.unique hp hz
    exact hnear e hze he

theorem exists_idom (hb : b < preds.size) (hpos : 0 < b) : ∃ d, Up (idoms preds parents) b d := by
  obtain ⟨p, hp⟩ := hr.parent b hpos hb
  exact ⟨_, up_idoms_iff.mpr ⟨hb, p, hp, rfl⟩⟩

theorem falling_idoms : Falling (idoms preds parents) := fun _ _ h => (hr.idom_spec h).1

theorem above_idoms_of_not_escapes (hb : b < preds.size) (h : ¬ Escapes preds a b) :
    Above (idoms preds parents) b a := by
  induction b using Nat.strong_induction_on with
  | _ b ih =>
    rcases Nat.eq_zero_or_pos b with rfl | hpos
    · exact absurd .refl h
    by_cases hab : a = b
    · rw [hab]
    obtain ⟨d, hd⟩ := hr.exists_idom hb hpos
    obtain ⟨hlt, habove, -, hnear⟩ := hr.idom_spec hd
    have hda : Above parents d a := hnear a hab h
    by_cases had : d = a
    · subst had
      exact .single hd
    · have hdesc : ¬ Escapes preds a d := fun h' =>
        h (hr.escapes_of_above h' habove (hr.parent_lt.lt hda had))
      exact ReflTransGen.head hd (ih d hlt (by omega) hdesc)

theorem above_idoms_of_pred (hd : Up (idoms preds parents) b d) (hp : p ∈ preds.getD b []) :
    Above (idoms preds parents) p d := by
  obtain ⟨-, -, hdom, -⟩ := hr.idom_spec hd
  by_cases hpd : p = d
  · rw [hpd]
  · exact hr.above_idoms_of_not_escapes (hr.bounded b p hp) fun h => hdom (h.of_pred hp hpd)

theorem idom_eq_of_single_pred (hd : Up (idoms preds parents) b d) (hp : preds.getD b [] = [p]) : d = p := by
  obtain ⟨hb, q, hq, -⟩ := up_idoms_iff.mp hd
  obtain ⟨hlt, -, -, hnear⟩ := hr.idom_spec hd
  have hqp : q = p := by simpa [hp] using hr.parent_mem b q hq
  subst hqp
  have hqb : q < b := hr.parent_lt b q hq
  have hdom : ¬ Escapes preds q b := by
    intro h
    obtain h | ⟨r, hr', hne, -⟩ := h.cases_pred
    · omega
    · rw [hp, List.mem_singleton] at hr'
      exact hne hr'
  have hdq : d ≤ q := hr.falling_idoms.le (hr.above_idoms_of_pred hd (by simp [hp]))
  have hqd : q ≤ d := hr.parent_lt.le (hnear q (by omega) hdom)
  omega

theorem idom_ne_entry (hone : ∀ b, 0 ∈ preds.getD b [] → b = 1) (hd : Up (idoms preds parents) b d)
    (hb : b ≠ 1) : d ≠ 0 := by
  obtain ⟨hlt, -, -, hnear⟩ := hr.idom_spec hd
  have hdom : ¬ Escapes preds 1 b := by
    intro h
    obtain h | ⟨c, hbc, hc⟩ := h.cases_tail
    · omega
    · obtain rfl := hone c (mem_predsAvoiding.mp hc).1
      obtain h | ⟨q, -, hq⟩ := hbc.cases_tail
      · exact hb h.symm
      · exact (mem_predsAvoiding.mp hq).2 rfl
  have hle : 1 ≤ d := hr.parent_lt.le (hnear 1 (Ne.symm hb) hdom)
  omega

end Rooted

/-! ## Frontiers -/

theorem lt_of_mem_frontiers (h : b ∈ (frontiers preds up).getD x []) : b < preds.size ∧ x < preds.size := by
  by_cases hx : x < preds.size
  · simp only [frontiers, Array.getD_eq_getD_getElem?, Array.getElem?_map, Array.getElem?_range, hx, if_true,
      Option.map_some, Option.getD_some, List.mem_filter, List.mem_range] at h
    exact ⟨h.1, hx⟩
  · simp [frontiers, hx] at h

theorem mem_climb_iff (hf : Falling up) {stop : Option Nat} {steps r : Nat} (hr : r < steps) :
    x ∈ climb up stop steps r ↔ Above up r x ∧ ∀ d, stop = some d → Above up r d → d < x := by
  induction steps generalizing r with
  | zero => omega
  | succ steps ih =>
    unfold climb
    by_cases hstop : some r = stop
    · rw [if_pos hstop]
      refine iff_of_false List.not_mem_nil fun ⟨habove, hbelow⟩ => ?_
      exact absurd (hbelow r hstop.symm .refl) (Nat.not_lt.mpr (hf.le habove))
    rw [if_neg hstop, List.mem_cons]
    constructor
    · rintro (rfl | hx)
      · refine ⟨.refl, fun d hd habove => hf.lt habove ?_⟩
        rintro rfl
        exact hstop hd.symm
      · cases hz : (up[r]?).join with
        | none => simp [hz] at hx
        | some z =>
          have hup : Up up r z := hz
          simp only [hz] at hx
          obtain ⟨habove, hbelow⟩ := (ih (Nat.lt_of_lt_of_le (hf r z hup) (by omega))).mp hx
          refine ⟨habove.head hup, fun d hd hrd => ?_⟩
          obtain rfl | ⟨z', hup', hzd⟩ := hrd.cases_head
          · exact absurd hd.symm hstop
          · exact hbelow d hd (Up.unique hup hup' ▸ hzd)
    · rintro ⟨habove, hbelow⟩
      obtain rfl | ⟨z, hup, hzx⟩ := habove.cases_head
      · exact .inl rfl
      · have hlt : z < r := hf r z hup
        have hz : (up[r]?).join = some z := hup
        simp only [hz]
        exact .inr ((ih (by omega)).mpr ⟨hzx, fun d hd hzd => hbelow d hd (hzd.head hup)⟩)

/-- The frontier of `x` are the meeting points that have `x` between a predecessor and the dominator. -/
theorem mem_frontiers_iff (hf : Falling up) (hbound : ∀ b, ∀ p ∈ preds.getD b [], p < preds.size)
    (hb : b < preds.size) : b ∈ (frontiers preds up).getD x [] ↔
      1 < (preds.getD b []).length ∧
        ∃ p ∈ preds.getD b [], Above up p x ∧ ∀ d, Up up b d → Above up p d → d < x := by
  have howner : x ∈ frontierOwners preds up b ↔ 1 < (preds.getD b []).length ∧
      ∃ p ∈ preds.getD b [], Above up p x ∧ ∀ d, Up up b d → Above up p d → d < x := by
    unfold frontierOwners
    by_cases hmeet : (preds.getD b []).length ≤ 1
    · simp only [hmeet, if_true]
      exact iff_of_false List.not_mem_nil fun h => absurd h.1 (Nat.not_lt.mpr hmeet)
    · simp only [hmeet, if_false, List.mem_flatMap, Nat.not_le.mp hmeet, true_and]
      refine exists_congr fun p => and_congr_right fun hp => ?_
      exact mem_climb_iff hf (Nat.lt_succ_of_lt (hbound b p hp))
  rw [← howner]
  by_cases hxs : x < preds.size
  · simp only [frontiers, Array.getD_eq_getD_getElem?, Array.getElem?_map, Array.getElem?_range, hxs, if_true,
      Option.map_some, Option.getD_some, List.mem_filter, List.mem_range, hb, decide_eq_true_iff, true_and]
  · refine iff_of_false (by simp [frontiers, hxs]) fun hx => hxs ?_
    obtain ⟨-, p, hp, habove, -⟩ := howner.mp hx
    exact Nat.lt_of_le_of_lt (hf.le habove) (hbound b p hp)

end Midend.Flow
