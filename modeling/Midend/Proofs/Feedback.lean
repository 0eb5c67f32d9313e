import Mathlib.Algebra.GroupWithZero.Nat
import Mathlib.Data.List.Induction
import Mathlib.Data.List.Nodup
import Midend.Proofs.Outcome
import Midend.Proofs.Reading

/-! # Views of feedback

The view of an inline cache by one argument groups its observations by the class of that argument. The groups stand in
the order in which their classes were first seen, small integers in front, and each has the target of its first
observation and the sum of all counts.
-/

namespace Midend

namespace InlineCache

variable {ic ic' view : InlineCache} {arg : Nat} {c c' : ClassId} {os cs : List Observation} {o p : Observation}

/-! ## Groups -/

/-- The observations that happened with class `c` at position `arg`. -/
def group (os : List Observation) (arg : Nat) (c : ClassId) : List Observation :=
  os.filter fun o => o.count ≠ 0 ∧ o.classes[arg]? = some c

/-- The classes at position `arg` of the observations that happened, as they came. -/
def seenAt (os : List Observation) (arg : Nat) : List ClassId :=
  (os.filter (·.count ≠ 0)).filterMap (·.classes[arg]?)

def smiFirst (cs : List ClassId) : List ClassId := cs.filter (· = .smi) ++ cs.filter (· ≠ .smi)

def classesAt (os : List Observation) (arg : Nat) : List ClassId := smiFirst (seenAt os arg).eraseDups

def total (os : List Observation) : Nat := (os.map (·.count)).sum

theorem mem_group : o ∈ group os arg c ↔ o ∈ os ∧ o.count ≠ 0 ∧ o.classes[arg]? = some c := by
  simp [group]

theorem mem_seenAt : c ∈ seenAt os arg ↔ ∃ o ∈ os, o.count ≠ 0 ∧ o.classes[arg]? = some c := by
  simp [seenAt, and_assoc]

theorem eraseDups_concat {xs : List ClassId} :
    (xs ++ [c]).eraseDups = if c ∈ xs then xs.eraseDups else xs.eraseDups ++ [c] := by
  rw [List.eraseDups_append]
  split <;> simp [List.removeAll, List.eraseDups_cons, *]

theorem nodup_eraseDups (xs : List ClassId) : xs.eraseDups.Nodup := by
  induction xs using List.reverseRecOn with
  | nil => simp
  | append_singleton xs c ih =>
    rw [eraseDups_concat]
    split
    case isTrue => exact ih
    case isFalse hnew =>
      refine List.nodup_append.mpr ⟨ih, List.nodup_singleton c, fun a ha b hb hab => hnew ?_⟩
      rwa [← List.mem_singleton.mp hb, ← hab, ← List.mem_eraseDups]

theorem mem_smiFirst {xs : List ClassId} : c ∈ smiFirst xs ↔ c ∈ xs := by
  by_cases h : c = .smi <;> simp [smiFirst, h]

theorem nodup_smiFirst {xs : List ClassId} (h : xs.Nodup) : (smiFirst xs).Nodup :=
  List.nodup_append.mpr ⟨h.filter _, h.filter _, fun a ha b hb hab => by simp_all⟩

theorem mem_classesAt : c ∈ classesAt os arg ↔ ∃ o ∈ os, o.count ≠ 0 ∧ o.classes[arg]? = some c := by
  rw [classesAt, mem_smiFirst, List.mem_eraseDups, mem_seenAt]

theorem nodup_classesAt : (classesAt os arg).Nodup := nodup_smiFirst (nodup_eraseDups _)

theorem head_classesAt (h : .smi ∈ classesAt os arg) : (classesAt os arg).head? = some .smi := by
  rw [classesAt, mem_smiFirst] at h
  have hmem : ClassId.smi ∈ ((seenAt os arg).eraseDups).filter (· = .smi) := by simpa using h
  obtain ⟨c, cs, hcs⟩ := List.exists_cons_of_ne_nil (List.ne_nil_of_mem hmem)
  have hc : c ∈ ((seenAt os arg).eraseDups).filter (· = .smi) := by simp [hcs]
  obtain rfl : c = .smi := by simpa using (List.mem_filter.mp hc).2
  rw [classesAt, smiFirst, hcs]
  rfl

theorem filter_classesAt : (classesAt os arg).filter (· ≠ .smi) = (seenAt os arg).eraseDups.filter (· ≠ .smi) := by
  simp [classesAt, smiFirst, List.filter_filter]

/-! ## One more observation -/

/-- The observation that stands for the group of `c`. -/
def merged (os : List Observation) (arg : Nat) (c : ClassId) : Observation :=
  ⟨[c], ((group os arg c).head?.map (·.target)).getD default, total (group os arg c)⟩

theorem group_concat (hcount : p.count ≠ 0) (hc : p.classes[arg]? = some c) :
    group (os ++ [p]) arg c' = group os arg c' ++ if c' = c then [p] else [] := by
  unfold group
  rw [List.filter_append]
  obtain rfl | h := eq_or_ne c' c
  · simp [hcount, hc]
  · simp [hc, h, Ne.symm h]

theorem classesAt_concat (hcount : p.count ≠ 0) (hc : p.classes[arg]? = some c) :
    classesAt (os ++ [p]) arg =
      if c ∈ classesAt os arg then classesAt os arg
      else if c = .smi then c :: classesAt os arg else classesAt os arg ++ [c] := by
  have hseen : seenAt (os ++ [p]) arg = seenAt os arg ++ [c] := by simp [seenAt, hcount, hc]
  rw [classesAt, hseen, eraseDups_concat]
  have hmem : c ∈ classesAt os arg ↔ c ∈ seenAt os arg := by rw [classesAt, mem_smiFirst, List.mem_eraseDups]
  simp only [hmem]
  split
  case isTrue => rfl
  case isFalse hnew =>
    split
    case isTrue hsmi =>
      subst hsmi
      have hnone : (seenAt os arg).eraseDups.filter (· = .smi) = [] := by
        simp only [List.filter_eq_nil_iff, List.mem_eraseDups, decide_eq_true_eq]
        rintro c hc rfl
        exact hnew hc
      simp [classesAt, smiFirst, hnone]
    case isFalse hsmi => simp [classesAt, smiFirst, hsmi]

theorem idle_concat (hcount : p.count = 0) :
    group (os ++ [p]) arg = group os arg ∧ classesAt (os ++ [p]) arg = classesAt os arg := by
  constructor
  · funext c
    simp [group, hcount]
  · simp [classesAt, seenAt, hcount]

theorem total_group_le {done rest : List Observation} :
    total (group done arg c) ≤ total (group (done ++ rest) arg c) := by
  simp [group, total]

theorem merged_of_ne (hcount : p.count ≠ 0) (hc : p.classes[arg]? = some c) (hne : c' ≠ c) :
    merged (os ++ [p]) arg c' = merged os arg c' := by
  simp [merged, group_concat hcount hc, hne]

theorem merged_of_new (hcount : p.count ≠ 0) (hc : p.classes[arg]? = some c) (hnew : c ∉ classesAt os arg) :
    merged (os ++ [p]) arg c = ⟨[c], p.target, p.count⟩ := by
  have hnone : group os arg c = [] := by
    refine List.eq_nil_iff_forall_not_mem.mpr fun o ho => hnew (mem_classesAt.mpr ⟨o, ?_⟩)
    simpa [mem_group] using ho
  simp [merged, group_concat hcount hc, hnone, total]

theorem merged_of_old (hcount : p.count ≠ 0) (hc : p.classes[arg]? = some c) (hold : c ∈ classesAt os arg) :
    merged (os ++ [p]) arg c = { merged os arg c with count := (merged os arg c).count + p.count } := by
  obtain ⟨o, ho⟩ := mem_classesAt.mp hold
  obtain ⟨q, qs, hq⟩ := List.exists_cons_of_ne_nil (List.ne_nil_of_mem (mem_group.mpr ho))
  simp [merged, group_concat hcount hc, hq, total]
  omega

theorem merge_map_merged (hcount : p.count ≠ 0) (hc : p.classes[arg]? = some c)
    (hfits : total (group (os ++ [p]) arg c) < Word.countLimit) :
    merge ((classesAt os arg).map (merged os arg)) c p.target p.count =
      .ok ((classesAt (os ++ [p]) arg).map (merged (os ++ [p]) arg)) := by
  unfold merge
  split
  case h_1 hnone =>
    have hnew : c ∉ classesAt os arg := fun hold => by
      have := List.findIdx?_eq_none_iff.mp hnone (merged os arg c) (List.mem_map_of_mem hold)
      simp [merged] at this
    have hmap : (classesAt os arg).map (merged (os ++ [p]) arg) = (classesAt os arg).map (merged os arg) :=
      List.map_congr_left fun c' hc' => merged_of_ne hcount hc fun heq => hnew (heq ▸ hc')
    rw [classesAt_concat hcount hc, if_neg hnew, withReceiver]
    split <;> simp [hmap, merged_of_new hcount hc hnew] <;> rfl
  case h_2 i hi =>
    obtain ⟨hlt, hhead, -⟩ := List.findIdx?_eq_some_iff_getElem.mp hi
    rw [List.length_map] at hlt
    obtain rfl : (classesAt os arg)[i] = c := by simpa [merged] using hhead
    have hold : (classesAt os arg)[i] ∈ classesAt os arg := List.getElem_mem hlt
    have hitem : itemAt ((classesAt os arg).map (merged os arg)) i = .ok (merged os arg (classesAt os arg)[i]) := by
      simp [itemAt, orFault, hlt]
    simp only [hitem, bind, Except.bind]
    have hsum : (merged os arg (classesAt os arg)[i]).count + p.count < Word.countLimit := by
      simpa [merged, group_concat hcount hc, total] using hfits
    rw [if_pos hsum, classesAt_concat hcount hc, if_pos hold]
    refine congrArg Except.ok (List.ext_getElem (by simp) fun j hj hj' => ?_)
    obtain rfl | hne := eq_or_ne i j
    · simp [merged_of_old hcount hc hold]
    · rw [List.getElem_set_ne hne, List.getElem_map, List.getElem_map, merged_of_ne hcount hc]
      exact fun heq => hne ((nodup_classesAt.getElem_inj_iff).mp heq).symm

/-! ## The view -/

/-- Every observation has a class for each tested argument. -/
def Complete (ic : InlineCache) : Prop := ∀ o ∈ ic.checks, ic.tested ≤ o.classes.length

inductive Recorded : InlineCache → Prop where
  | empty (selector : String) (tested : Nat) : Recorded { selector, tested }
  | add {ic ic' : InlineCache} {classes : List ClassId} {target : FunctionId} (h : Recorded ic)
    (hadd : ic.add classes target = .ok ic') : Recorded ic'
  | addReceiver {ic ic' : InlineCache} {cls : ClassId} {target : FunctionId} {count : Nat} (h : Recorded ic)
    (hadd : ic.addReceiver cls target count = .ok ic') : Recorded ic'
  | withFailure {ic : InlineCache} (h : Recorded ic) (r : DeoptReason) : Recorded (ic.withFailure r)
  | unary {ic view : InlineCache} {arg : Nat} (h : Recorded ic) (hview : ic.unary arg = .ok view) : Recorded view

/-- The target of an observation depends on the class of its receiver only. -/
def DecidedByReceiver (ic : InlineCache) : Prop :=
  ∀ o ∈ ic.checks, ∀ p ∈ ic.checks, o.classes.head? = p.classes.head? → o.target = p.target

/-- `o` stands for the observations in the group of `c`. -/
structure Merges (os : List Observation) (arg : Nat) (c : ClassId) (o : Observation) : Prop where
  classes : o.classes = [c]
  target : (group os arg c).head?.map (·.target) = some o.target
  count : o.count = total (group os arg c)

/-- `view` is what `ic` says about argument `arg` alone. -/
structure IsView (ic : InlineCache) (arg : Nat) (view : InlineCache) : Prop where
  selector : view.selector = ic.selector
  tested : view.tested = 1
  failed : view.failed = ic.failed
  checks : List.Forall₂ (Merges ic.checks arg) (classesAt ic.checks arg) view.checks
  seen : ∀ c, c ∈ classesAt ic.checks arg ↔ ∃ o ∈ ic.checks, o.count ≠ 0 ∧ o.classes[arg]? = some c
  once : (classesAt ic.checks arg).Nodup
  smiFirst : .smi ∈ classesAt ic.checks arg → (classesAt ic.checks arg).head? = some .smi
  inOrder : (classesAt ic.checks arg).filter (· ≠ .smi) = (seenAt ic.checks arg).eraseDups.filter (· ≠ .smi)

theorem unary_eq_ok (hcomplete : ic.Complete) (harg : arg < ic.tested)
    (hfits : ∀ c, total (group ic.checks arg c) < Word.countLimit) :
    ic.unary arg = .ok { selector := ic.selector, tested := 1, failed := ic.failed,
                         checks := (classesAt ic.checks arg).map (merged ic.checks arg) } := by
  have hwalk : Yields False (ic.checks.foldlM (fun cs o => do
      if o.count = 0 then return cs
      merge cs (← o.classAt arg) o.target o.count) []) fun cs =>
        cs = (classesAt ic.checks arg).map (merged ic.checks arg) := by
    refine Yields.foldlM (fun done cs => cs = (classesAt done arg).map (merged done arg)) rfl ?_
    rintro done p rest _ hchecks rfl
    split
    case isTrue hzero =>
      rw [Yields.pure_iff, (idle_concat hzero).2]
      exact List.map_congr_left fun c _ => by rw [merged, merged, (idle_concat hzero).1]
    case isFalse hcount =>
      have hlt : arg < p.classes.length := Nat.lt_of_lt_of_le harg (hcomplete p (by simp [hchecks]))
      have hc : p.classes[arg]? = some p.classes[arg] := List.getElem?_eq_getElem hlt
      have hle : total (group (done ++ [p]) arg p.classes[arg]) ≤ total (group ic.checks arg p.classes[arg]) := by
        rw [hchecks, List.append_cons done p rest]
        exact total_group_le
      rw [Yields.bind_iff, Observation.classAt, itemAt, hc, orFault, Yields.ok_iff,
        merge_map_merged hcount hc (Nat.lt_of_le_of_lt hle (hfits _)), Yields.ok_iff]
  obtain ⟨_, hrun, rfl⟩ := hwalk.exists_ok
  unfold unary
  rw [if_neg (by omega)]
  simp only [bind_pure_comp]
  rw [hrun]
  rfl

theorem merges_merged (hc : c ∈ classesAt os arg) : Merges os arg c (merged os arg c) := by
  obtain ⟨o, ho⟩ := mem_classesAt.mp hc
  obtain ⟨q, qs, hq⟩ := List.exists_cons_of_ne_nil (List.ne_nil_of_mem (mem_group.mpr ho))
  exact ⟨rfl, by simp [merged, hq], rfl⟩

theorem isView_of_checks (hselector : view.selector = ic.selector) (htested : view.tested = 1)
    (hfailed : view.failed = ic.failed) (hchecks : view.checks = (classesAt ic.checks arg).map (merged ic.checks arg)) :
    IsView ic arg view where
  selector := hselector
  tested := htested
  failed := hfailed
  checks := by
    rw [hchecks, List.forall₂_map_right_iff, List.forall₂_same]
    exact fun c hc => merges_merged hc
  seen _ := mem_classesAt
  once := nodup_classesAt
  smiFirst := head_classesAt
  inOrder := filter_classesAt

/-! ## Receivers -/

theorem findReceiver_eq_ok (hcomplete : ∀ o ∈ os, o.classes ≠ []) :
    findReceiver os c = .ok (os.find? (·.classes.head? == some c)) := by
  induction os with
  | nil => rfl
  | cons o os ih =>
    obtain ⟨d, ds, hd⟩ := List.exists_cons_of_ne_nil (hcomplete o (by simp))
    have hreceiver : o.receiver = .ok d := by simp [Observation.receiver, Observation.classAt, itemAt, orFault, hd]
    have hrest := ih fun p hp => hcomplete p (by simp [hp])
    have hsame : (o.classes.head? == some c) = (d == c) := by rw [hd]; rfl
    unfold findReceiver at hrest ⊢
    rw [List.find?_cons, hsame]
    simp only [List.findM?, hreceiver, bind, Except.bind, pure, Except.pure] at hrest ⊢
    cases d == c with
    | true => rfl
    | false => exact hrest

/-- If the targets depend on the class of the receiver only, one that was seen has the target of its group. -/
theorem targetFor_of_mem (hcomplete : ic.Complete) (htested : 0 < ic.tested) (hdecided : ic.DecidedByReceiver)
    (hc : c ∈ classesAt ic.checks 0) : ic.targetFor c = .ok (some (merged ic.checks 0 c).target) := by
  have hne : ∀ o ∈ ic.checks, o.classes ≠ [] := fun o ho hnil => by
    have := hcomplete o ho
    rw [hnil, List.length_nil] at this
    omega
  obtain ⟨p, hp⟩ := mem_classesAt.mp hc
  obtain ⟨q, qs, hq⟩ := List.exists_cons_of_ne_nil (List.ne_nil_of_mem (mem_group.mpr hp))
  have hqmem : q ∈ group ic.checks 0 c := by simp [hq]
  obtain ⟨hqchecks, -, hqclass⟩ := mem_group.mp hqmem
  rw [← List.head?_eq_getElem?] at hqclass
  obtain ⟨o, ho⟩ : ∃ o, ic.checks.find? (·.classes.head? == some c) = some o :=
    Option.isSome_iff_exists.mp (List.find?_isSome.mpr ⟨q, hqchecks, by simp [hqclass]⟩)
  have htarget : o.target = q.target := by
    refine hdecided o (List.mem_of_find?_eq_some ho) q hqchecks ?_
    simpa [hqclass] using List.find?_some ho
  rw [targetFor, findReceiver_eq_ok hne, ho]
  simp [merged, hq, htarget, bind, Except.bind, pure, Except.pure]

theorem targetFor_map_merged (hchecks : view.checks = (classesAt os arg).map (merged os arg))
    (hc : c ∈ classesAt os arg) : view.targetFor c = .ok (some (merged os arg c).target) := by
  have hne : ∀ o ∈ view.checks, o.classes ≠ [] := fun o ho => by
    rw [hchecks] at ho
    obtain ⟨d, -, rfl⟩ := List.mem_map.mp ho
    simp [merged]
  have hfind : view.checks.find? (·.classes.head? == some c) = some (merged os arg c) := by
    obtain ⟨o, ho⟩ : ∃ o, view.checks.find? (·.classes.head? == some c) = some o :=
      Option.isSome_iff_exists.mp (List.find?_isSome.mpr ⟨merged os arg c, by
        rw [hchecks]
        exact List.mem_map_of_mem hc, by simp [merged]⟩)
    have hmem := List.mem_of_find?_eq_some ho
    rw [hchecks] at hmem
    obtain ⟨d, -, rfl⟩ := List.mem_map.mp hmem
    obtain rfl : d = c := by simpa [merged] using List.find?_some ho
    exact ho
  rw [targetFor, findReceiver_eq_ok hne, hfind]
  rfl

theorem complete_withReceiver {tested count : Nat} {target : FunctionId} (hone : tested = 1)
    (hcs : ∀ o ∈ cs, tested ≤ o.classes.length) : ∀ o ∈ withReceiver cs c target count, tested ≤ o.classes.length := by
  intro o ho
  obtain rfl | ho : o = ⟨[c], target, count⟩ ∨ o ∈ cs := by
    unfold withReceiver at ho
    split at ho <;> simpa [or_comm] using ho
  · exact Nat.le_of_eq hone
  · exact hcs o ho

theorem complete_merge {count : Nat} {target : FunctionId} (hcs : ∀ o ∈ cs, 1 ≤ o.classes.length) :
    Yields True (merge cs c target count) fun cs' => ∀ o ∈ cs', 1 ≤ o.classes.length := by
  unfold merge
  split
  case h_1 => exact complete_withReceiver rfl hcs
  case h_2 i _ =>
    rw [Yields.bind_iff]
    refine Yields.of_ok fun old hold => ?_
    split
    case isFalse => trivial
    case isTrue =>
      intro o ho
      obtain ho | rfl := List.mem_or_eq_of_mem_set ho
      · exact hcs o ho
      · exact hcs old (List.mem_of_getElem? (orFault_eq_ok.mp hold))

theorem complete_of_unary (hview : ic.unary arg = .ok view) : view.Complete := by
  unfold unary at hview
  dsimp only at hview
  split at hview
  · cases hview
  obtain ⟨checks, hchecks, hpure⟩ := bind_eq_ok.mp hview
  obtain rfl := pure_eq_ok.mp hpure
  refine (show Yields True _ fun (cs : List Observation) => ∀ o ∈ cs, 1 ≤ o.classes.length from ?_).post_of_ok
    hchecks
  refine Yields.foldlM (fun _ (cs : List Observation) => ∀ o ∈ cs, 1 ≤ o.classes.length) (by simp)
    fun done p rest cs _ hcs => ?_
  split
  · exact hcs
  · rw [Yields.bind_iff]
    exact Yields.of_ok fun c _ => complete_merge hcs

theorem Recorded.complete (h : Recorded ic) : ic.Complete := by
  induction h with
  | empty => intro o ho; cases ho
  | add _ hadd ih =>
    unfold InlineCache.add at hadd
    split at hadd
    case isFalse => cases hadd
    case isTrue hlength =>
      cases hadd
      intro o ho
      obtain ho | rfl := by simpa using ho
      · exact ih o ho
      · exact Nat.le_of_eq hlength.symm
  | addReceiver _ hadd ih =>
    unfold InlineCache.addReceiver at hadd
    split at hadd
    case isFalse => cases hadd
    case isTrue hone =>
      cases hadd
      exact complete_withReceiver hone ih
  | withFailure _ r ih =>
    unfold InlineCache.withFailure
    split <;> exact ih
  | unary _ hview => exact complete_of_unary hview

/-- The view of a cache by one of its tested arguments says what the cache says about that argument. For the receiver it
names the same targets, if these depend on the receiver only. -/
theorem unary_isView (hcomplete : ic.Complete) (harg : arg < ic.tested)
    (hfits : ∀ c, total (group ic.checks arg c) < Word.countLimit) :
    ∃ view, ic.unary arg = .ok view ∧ IsView ic arg view ∧
      (arg = 0 → ic.DecidedByReceiver → ∀ c ∈ classesAt ic.checks arg,
        ∃ f, ic.targetFor c = .ok (some f) ∧ view.targetFor c = .ok (some f)) := by
  refine ⟨_, unary_eq_ok hcomplete harg hfits, isView_of_checks rfl rfl rfl rfl, ?_⟩
  rintro rfl hdecided c hc
  exact ⟨_, targetFor_of_mem hcomplete harg hdecided hc, targetFor_map_merged rfl hc⟩

theorem total_group_le_total : total (group os arg c) ≤ total os := by
  induction os with
  | nil => exact Nat.le_refl _
  | cons o os ih =>
    unfold group total at ih ⊢
    rw [List.filter_cons]
    split <;> simp only [List.map_cons, List.sum_cons] <;> omega

/-- A sum that was seen with doubles and small integers, and a pair that never came. -/
def sumCache : InlineCache where
  selector := "+"
  tested := 2
  checks := [⟨[.mint, .smi], ⟨2⟩, 0⟩, ⟨[.double, .smi], ⟨0⟩, 3⟩, ⟨[.smi, .smi], ⟨1⟩, 1⟩, ⟨[.double, .double], ⟨0⟩, 4⟩]

theorem sumCache_view : sumCache.Complete ∧ 0 < sumCache.tested ∧
    (∀ c, total (group sumCache.checks 0 c) < Word.countLimit) ∧ sumCache.DecidedByReceiver ∧
    classesAt sumCache.checks 0 = [.smi, .double] ∧
    ∃ view, sumCache.unary 0 = .ok view ∧ IsView sumCache 0 view ∧
      ∃ f, sumCache.targetFor .double = .ok (some f) ∧ view.targetFor .double = .ok (some f) := by
  have hcomplete : sumCache.Complete := by unfold Complete; decide
  have hfits : ∀ c, total (group sumCache.checks 0 c) < Word.countLimit := fun c =>
    Nat.lt_of_le_of_lt total_group_le_total (by decide)
  have hdecided : sumCache.DecidedByReceiver := by unfold DecidedByReceiver; decide
  have hclasses : classesAt sumCache.checks 0 = [.smi, .double] := by decide
  obtain ⟨view, hview, hisview, htarget⟩ := unary_isView hcomplete (show 0 < sumCache.tested by decide) hfits
  exact ⟨hcomplete, by decide, hfits, hdecided, hclasses, view, hview, hisview,
    htarget rfl hdecided .double (by simp [hclasses])⟩

end InlineCache

end Midend
