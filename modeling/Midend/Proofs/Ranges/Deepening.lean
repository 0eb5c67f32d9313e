import Mathlib.Algebra.Order.BigOperators.Group.Finset
import Mathlib.Tactic.Linarith
import Midend.Proofs.Ranges.Placing

/-! # Constraints on constraints

A use that is named after a constraint has less behind its new name than behind the old one. So there is a bound on how
often this can happen, and with it on the constraints.
-/

namespace Midend.Ranges

open FlowGraph

variable {g₀ g g' : FlowGraph} {pos pos' : InstId → Position} {cs new : List InstId} {s s' : Progress}
  {b : BlockId} {c d e i : InstId} {u : Use} {us : List Use} {k : Nat}

/-! ## What is still to be done -/

open Classical in
/-- What can lie behind new names of the use, and one more if its name is still to be looked at. -/
noncomputable def cost (g₀ : FlowGraph) (pos : InstId → Position) (cs : List InstId) (waits : InstId → Prop)
    (g : FlowGraph) (u : Use) : Nat :=
  match g.inputAt u with
  | some e => if e ∈ cs then rank g₀ (pos e) + if waits e then 1 else 0 else 0
  | none => 0

noncomputable def effort (g₀ : FlowGraph) (pos : InstId → Position) (cs : List InstId) (waits : Use → InstId → Prop)
    (g : FlowGraph) : Nat :=
  ∑ u ∈ slots g₀, cost g₀ pos cs (waits u) g u

section

variable {waits waits' : InstId → Prop}

theorem cost_of_mem (hu : g.inputAt u = some e) (he : e ∈ cs) (hwaits : waits e) :
    cost g₀ pos cs waits g u = rank g₀ (pos e) + 1 := by
  unfold cost
  rw [hu]
  simp [he, hwaits]

theorem cost_of_not_waiting (hu : g.inputAt u = some e) (he : e ∈ cs) (hwaits : ¬ waits e) :
    cost g₀ pos cs waits g u = rank g₀ (pos e) := by
  unfold cost
  rw [hu]
  simp [he, hwaits]

theorem cost_of_not_mem (hu : ∀ e, g.inputAt u = some e → e ∉ cs) : cost g₀ pos cs waits g u = 0 := by
  unfold cost
  split
  case h_1 e he => rw [if_neg (hu e he)]
  case h_2 => rfl

theorem cost_mono (h : ∀ e, waits' e → waits e) : cost g₀ pos cs waits' g u ≤ cost g₀ pos cs waits g u := by
  by_cases hmem : ∃ e ∈ cs, g.inputAt u = some e
  · obtain ⟨e, he, hu⟩ := hmem
    by_cases hwait' : waits' e
    · rw [cost_of_mem hu he hwait', cost_of_mem hu he (h e hwait')]
    · rw [cost_of_not_waiting hu he hwait']
      by_cases hwait : waits e
      · rw [cost_of_mem hu he hwait]
        exact Nat.le_succ _
      · rw [cost_of_not_waiting hu he hwait]
  · rw [cost_of_not_mem fun e hu he => hmem ⟨e, he, hu⟩]
    exact Nat.zero_le _

theorem effort_mono {waits waits' : Use → InstId → Prop} (h : ∀ u e, waits' u e → waits u e) :
    effort g₀ pos cs waits' g ≤ effort g₀ pos cs waits g :=
  Finset.sum_le_sum fun u _ => cost_mono (h u)

theorem cost_le (h : Unconstrained g₀) : cost g₀ pos cs waits g u ≤ g₀.nodes.size + 1 := by
  unfold cost
  split
  · split
    · have hrank (p : Position) := rank_le h.located p
      split
      · exact Nat.succ_le_succ (hrank _)
      · exact Nat.le_succ_of_le (hrank _)
    · exact Nat.zero_le _
  · exact Nat.zero_le _

theorem card_slots_le (g₀ : FlowGraph) : (slots g₀).card ≤ g₀.nodes.size * 2 := by
  unfold slots
  refine (Finset.card_filter_le _ _).trans (Finset.card_image_le.trans ?_)
  rw [Finset.card_product, Finset.card_range, Finset.card_range]

theorem effort_le (h : Unconstrained g₀) {waits : Use → InstId → Prop} :
    effort g₀ pos cs waits g ≤ g₀.nodes.size * 2 * (g₀.nodes.size + 1) := by
  calc effort g₀ pos cs waits g ≤ (slots g₀).card • (g₀.nodes.size + 1) :=
        Finset.sum_le_card_nsmul _ _ _ fun u _ => cost_le h
    _ ≤ g₀.nodes.size * 2 * (g₀.nodes.size + 1) := Nat.mul_le_mul_right _ (card_slots_le g₀)

variable (hu : Unconstrained g₀) (h : Working g₀ pos [] s g) (h' : Working g₀ pos' [] s' g')
  (hadvanced : Advanced g₀ c new pos pos' s s' g g') (hc : c ∈ s.constraints)

include hu h h' hadvanced hc

/-- New constraints on `c` do not make a use cost more. It costs less if it had to wait for `c`, and waits no more. -/
theorem cost_advanced (hslot : u ∈ slots g₀) (hwaits : ∀ e ∈ s.constraints, waits' e → waits e) :
    cost g₀ pos' s'.constraints waits' g' u ≤ cost g₀ pos s.constraints waits g u ∧
      (g.inputAt u = some c → waits c → ¬ waits' c →
        cost g₀ pos' s'.constraints waits' g' u < cost g₀ pos s.constraints waits g u) := by
  obtain ⟨hdiscovered, hlt, -⟩ := mem_slots.mp hslot
  have hsub : s.constraints ⊆ s'.constraints := hadvanced.constraints ▸ List.subset_append_left _ _
  obtain hsame | ⟨hinput, e, he, hinput'⟩ := hadvanced.inputs u (h.steady.old_lt hlt)
  · by_cases hmem : ∃ e ∈ s.constraints, g.inputAt u = some e
    · obtain ⟨e, he, hinput⟩ := hmem
      have hinput' := hsame.trans hinput
      have hpos := hadvanced.kept e he
      by_cases hwait' : waits' e
      · rw [cost_of_mem hinput' (hsub he) hwait', cost_of_mem hinput he (hwaits e he hwait'), hpos]
        refine ⟨Nat.le_refl _, fun hinput₁ _ hnot => ?_⟩
        obtain rfl := Option.some_inj.mp (hinput.symm.trans hinput₁)
        exact absurd hwait' hnot
      · rw [cost_of_not_waiting hinput' (hsub he) hwait', hpos]
        by_cases hwait : waits e
        · rw [cost_of_mem hinput he hwait]
          exact ⟨Nat.le_succ _, fun _ _ _ => Nat.lt_succ_self _⟩
        · rw [cost_of_not_waiting hinput he hwait]
          refine ⟨Nat.le_refl _, fun hinput₁ hwait₁ _ => ?_⟩
          obtain rfl := Option.some_inj.mp (hinput.symm.trans hinput₁)
          exact absurd hwait₁ hwait
    · -- an instruction that reads no constraint reads what was there at first
      have hnone : cost g₀ pos' s'.constraints waits' g' u = 0 := by
        refine cost_of_not_mem fun e hinput' hmem' => ?_
        have hinput := hsame.symm.trans hinput'
        obtain ⟨n, hn, hk⟩ := Option.bind_eq_some_iff.mp hinput
        obtain hoffer | he := h.steady.operands u.user n (.inl hdiscovered) hn e (List.mem_of_getElem? hk)
        · exact h'.steady.not_mem_of_offer hu hoffer hmem'
        · exact hmem ⟨e, he, hinput⟩
      rw [hnone]
      exact ⟨Nat.zero_le _, fun hinput => absurd ⟨c, hc, hinput⟩ hmem⟩
  · have hdeep : rank g₀ (pos' e) < rank g₀ (pos c) := hadvanced.deeper e he hc
    have he' : e ∈ s'.constraints := hadvanced.constraints ▸ List.mem_append_right _ he
    have hle : cost g₀ pos' s'.constraints waits' g' u ≤ rank g₀ (pos c) := by
      by_cases hwait : waits' e
      · rw [cost_of_mem hinput' he' hwait]
        exact hdeep
      · rw [cost_of_not_waiting hinput' he' hwait]
        exact hdeep.le
    by_cases hwait : waits c
    · rw [cost_of_mem hinput hc hwait]
      exact ⟨Nat.le_succ_of_le hle, fun _ _ _ => Nat.lt_succ_of_le hle⟩
    · rw [cost_of_not_waiting hinput hc hwait]
      exact ⟨hle, fun _ hwait' => absurd hwait' hwait⟩

theorem effort_advanced {waits waits' : Use → InstId → Prop}
    (hwaits : ∀ u, ∀ e ∈ s.constraints, waits' u e → waits u e) :
    effort g₀ pos' s'.constraints waits' g' ≤ effort g₀ pos s.constraints waits g ∧
      (u ∈ slots g₀ → g.inputAt u = some c → waits u c → ¬ waits' u c →
        effort g₀ pos' s'.constraints waits' g' < effort g₀ pos s.constraints waits g) := by
  have hcost {v : Use} (hv : v ∈ slots g₀) := cost_advanced hu h h' hadvanced hc hv (hwaits v)
  refine ⟨Finset.sum_le_sum fun v hv => (hcost hv).1, fun hslot hinput hwait hnot => ?_⟩
  exact Finset.sum_lt_sum (fun v hv => (hcost hv).1) ⟨u, hslot, (hcost hslot).2 hinput hwait hnot⟩

end

/-! ## Looking at constraints -/

/-- Constraints behind position `k` wait for a use, and `c` itself if the use is still among those to be looked at. -/
def Waiting (s : Progress) (k : Nat) (c : InstId) (us : List Use) (u : Use) (e : InstId) : Prop :=
  e ∈ s.constraints.drop (k + 1) ∨ e = c ∧ u ∈ us

theorem drop_of_getElem? (hc : cs[k]? = some c) : cs.drop k = c :: cs.drop (k + 1) := by
  obtain ⟨hlt, rfl⟩ := List.getElem?_eq_some_iff.mp hc
  exact List.drop_eq_getElem_cons hlt

theorem not_mem_drop_succ (hnodup : cs.Nodup) (hc : cs[k]? = some c) : c ∉ cs.drop (k + 1) := by
  have hdrop := hnodup.sublist (List.drop_sublist k cs)
  rw [drop_of_getElem? hc] at hdrop
  exact (List.nodup_cons.mp hdrop).1

/-- There will be no more than `bound` constraints. -/
structure Bounding (g₀ : FlowGraph) (bound k : Nat) (c : InstId) (us : List Use) (pos : InstId → Position)
    (s : Progress) (g : FlowGraph) : Prop where
  current : s.constraints[k]? = some c
  enough : s.constraints.length + 2 * effort g₀ pos s.constraints (Waiting s k c us) g ≤ bound

theorem Bounding.advance {bound : Nat} (hu : Unconstrained g₀) (h : Working g₀ pos [] s g)
    (h' : Working g₀ pos' [] s' g') (hadvanced : Advanced g₀ c new pos pos' s s' g g') (hnot : u ∉ us)
    (hfew : new = [] ∨ new.length ≤ 2 ∧ g.inputAt u = some c ∧ u ∈ slots g₀)
    (hbound : Bounding g₀ bound k c (u :: us) pos s g) : Bounding g₀ bound k c us pos' s' g' := by
  have hc : c ∈ s.constraints := List.mem_of_getElem? hbound.current
  have hlt : k < s.constraints.length := (List.getElem?_eq_some_iff.mp hbound.current).1
  have hcurrent : s'.constraints[k]? = some c := by
    rw [hadvanced.constraints, List.getElem?_append_left hlt, hbound.current]
  have hlength : s'.constraints.length = s.constraints.length + new.length := by
    rw [hadvanced.constraints, List.length_append]
  have hwaits (v : Use) (e : InstId) (he : e ∈ s.constraints) (hwait : Waiting s' k c us v e) :
      Waiting s k c (u :: us) v e := by
    refine hwait.imp (fun hmem => ?_) fun hwait => ⟨hwait.1, List.mem_cons_of_mem _ hwait.2⟩
    rw [hadvanced.constraints, List.drop_append_of_le_length hlt] at hmem
    refine (List.mem_append.mp hmem).resolve_right fun hnew => ?_
    have honce := h'.steady.once
    rw [hadvanced.constraints] at honce
    exact (List.nodup_append.mp honce).2.2 e he e hnew rfl
  obtain ⟨hle, hless⟩ := effort_advanced (u := u) hu h h' hadvanced hc hwaits
  refine ⟨hcurrent, ?_⟩
  have henough := hbound.enough
  obtain rfl | ⟨htwo, hinput, hslot⟩ := hfew
  · rw [List.length_nil] at hlength
    omega
  · have hless := hless hslot hinput (.inr ⟨rfl, List.mem_cons_self⟩) fun hwait =>
      hwait.elim (not_mem_drop_succ h'.steady.once hcurrent) fun hmem => hnot hmem.2
    omega

theorem threads_constrainFurther (hu : Unconstrained g₀) (ht : Tractable g₀) (steps : Nat) (h : Working g₀ pos [] s g)
    (hk : k ≤ s.constraints.length) (hbound : s.constraints.length +
      2 * effort g₀ pos s.constraints (fun _ e => e ∈ s.constraints.drop k) g < k + steps) :
    Threads False g s (constrainFurther steps k) fun _ s' g' => ∃ pos', Working g₀ pos' [] s' g' := by
  induction steps generalizing k pos s g with
  | zero => omega
  | succ steps ih =>
    unfold constrainFurther
    rw [Threads.bind_iff, Threads.get_iff]
    split
    case h_1 => exact ⟨pos, h⟩
    case h_2 c hc =>
      rw [Threads.bind_iff]
      refine (threads_constrainUses hu ht h (.inr (List.mem_of_getElem? hc)) (Bounding g₀ (k + steps) k c)
        (fun us _ => ⟨hc, ?_⟩) fun u us pos pos' new s s' g g' h h' hadvanced hnot hfew hinv =>
          hinv.advance hu h h' hadvanced hnot hfew).mono fun _ s₁ g₁ ⟨pos₁, h₁, hinv⟩ => ?_
      · have hwaits (u : Use) (e : InstId) (hwait : Waiting s k c us u e) : e ∈ s.constraints.drop k := by
          rw [drop_of_getElem? hc]
          exact hwait.elim (List.mem_cons_of_mem _) fun heq => heq.1 ▸ List.mem_cons_self
        have hle : effort g₀ pos s.constraints (Waiting s k c us) g ≤
            effort g₀ pos s.constraints (fun _ e => e ∈ s.constraints.drop k) g := effort_mono hwaits
        omega
      · have hle : effort g₀ pos₁ s₁.constraints (fun _ e => e ∈ s₁.constraints.drop (k + 1)) g₁ ≤
            effort g₀ pos₁ s₁.constraints (Waiting s₁ k c []) g₁ := effort_mono fun _ _ => .inl
        have henough := hinv.enough
        exact ih h₁ (List.getElem?_eq_some_iff.mp hinv.current).1 (by omega)

/-- The steps that are allowed are enough. -/
theorem bound_lt {m n size : Nat} (hsize : m + n ≤ size) :
    m + 2 * (n * 2 * (n + 1)) < (size + 2) * (size + 2) * (size + 2) := by
  have hsquare : 4 * (n + 1) ≤ (n + 2) * (n + 2) := by nlinarith
  calc m + 2 * (n * 2 * (n + 1)) < (m + n + 2) * (4 * (n + 1)) := by nlinarith
    _ ≤ (m + n + 2) * ((n + 2) * (n + 2)) := Nat.mul_le_mul_left _ hsquare
    _ ≤ (size + 2) * ((size + 2) * (size + 2)) := by gcongr <;> omega
    _ = (size + 2) * (size + 2) * (size + 2) := (Nat.mul_assoc _ _ _).symm

/-! ## Before there are constraints -/

/-- The ranges of `ds` are forgotten. -/
def unranged (ds : List InstId) (i : InstId) (n : Node) : Node := if i ∈ ds then { n with range := none } else n

theorem unranged_same (ds : List InstId) (i : InstId) (n : Node) : (unranged ds i n).inst = n.inst ∧
    (unranged ds i n).block = n.block ∧ (unranged ds i n).inputUses = n.inputUses ∧
      (unranged ds i n).envUses = n.envUses := by
  unfold unranged
  split <;> exact ⟨rfl, rfl, rfl, rfl⟩

theorem shell_unranged (loops : BlockId → Block → Option (List Nat)) (ds : List InstId) :
    shell ((g.withLoops loops).mapNodes (unranged ds)) = shell g := by
  have hblocks : ((g.withLoops loops).blocks.map fun k => { k with loop := none }) =
      g.blocks.map fun k => { k with loop := none } := by
    refine Array.ext_getElem? fun k => ?_
    have hk : (g.withLoops loops).blocks[k]? = _ := blocks_mapBlocks (b := ⟨k⟩)
    rw [Array.getElem?_map, Array.getElem?_map, hk, Option.map_map]
    rfl
  unfold shell
  rw [blocks_mapNodes, hblocks]
  rfl

/-- Only loops have been found, and the ranges of definitions forgotten. -/
theorem steady_start (ht : Tractable g₀) (loops : BlockId → Block → Option (List Nat))
    {ds : List InstId} (hds : ∀ d, Offers g₀ d → d ∈ ds) :
    Steady g₀ pos [] [] [] [] ((g₀.withLoops loops).mapNodes (unranged ds)) := by
  have hmaps : Maps g₀ ((g₀.withLoops loops).mapNodes (unranged ds)) (unranged ds) := fun j => nodes_mapNodes j
  have hsame := unranged_same ds
  have hold {b : BlockId} {i : InstId} (hi : i ∈ g₀.insts b) : i.index < g₀.nodes.size := by
    obtain ⟨n, hn, -⟩ := ht.node_of_mem hi
    exact (Array.getElem?_eq_some_iff.mp hn).1
  have hnew {c : InstId} {P : Prop} (hc : c ∈ ([] : List InstId)) : P := nomatch hc
  constructor
  case shell => exact shell_unranged loops ds
  case spread =>
    refine ⟨ht.housed.sound, fun b => ?_, fun b c hc => .inl (hold hc)⟩
    show (g₀.insts b).filter _ = _
    rw [List.filter_eq_self.mpr fun i hi => decide_eq_true (hold hi), List.filter_eq_self.mpr fun i _ => by simp]
  case kept =>
    intro i n₀ hn₀
    obtain ⟨hinst, hblock, -, henv⟩ := hsame i n₀
    exact ⟨_, by rw [hmaps, hn₀, Option.map_some], by rw [hinst], fun _ => hblock, henv.trans⟩
  case fresh => exact fun c hc => hc.elim hnew hnew
  case lists =>
    refine ht.lists.congr (fun d => hmaps.inputUses?_eq fun n => (hsame d n).2.2.1) (fun u => ?_)
      fun u _ => hmaps.inputAt (fun j n => by rw [(hsame j n).1]) u
    unfold Reader
    simp
  case operands =>
    intro i n hi hn a ha
    rw [hmaps] at hn
    obtain ⟨n₀, hn₀, rfl⟩ := Option.map_eq_some_iff.mp hn
    rw [(hsame i n₀).1] at ha
    obtain ⟨b, hb, hmem⟩ := hi.resolve_right fun hi => hi.elim hnew hnew
    exact .inl (ht.inputs b hb i (List.mem_append.mpr hmem) n₀ hn₀ a ha)
  case ranges =>
    intro d r hd hrun
    have hmem : d ∈ ds := hds d ((hd.resolve_right List.not_mem_nil).resolve_right List.not_mem_nil)
    obtain ⟨n, hn, hrange⟩ := range_eq_ok.mp hrun
    rw [hmaps] at hn
    obtain ⟨n₀, -, rfl⟩ := Option.map_eq_some_iff.mp hn
    unfold unranged at hrange
    rw [if_pos hmem] at hrange
    cases hrange
  case homeless =>
    intro c n hc _ hn
    rw [hmaps] at hn
    obtain ⟨n₀, hn₀, -⟩ := Option.map_eq_some_iff.mp hn
    exact absurd (Array.getElem?_eq_some_iff.mp hn₀).1 (Nat.not_lt.mpr hc)
  case once => exact List.nodup_nil
  case count =>
    rw [size_mapNodes]
    exact (Nat.zero_add _).le
  all_goals exact fun c hc => hnew hc

theorem leads_clearRanges (hu : Unconstrained g₀) (ht : Tractable g₀) (loops : BlockId → Block → Option (List Nat)) :
    Leads False (g₀.withLoops loops) clearRanges fun _ g => Steady g₀ pos [] [] [] [] g := by
  have hstart : (g₀.withLoops loops).mapNodes (unranged []) = g₀.withLoops loops := by
    have hnone : unranged [] = fun _ n => n := by
      funext i n
      simp [unranged]
    rw [hnone, mapNodes_id]
  have halike : Alike g₀ (g₀.withLoops loops) :=
    ⟨hstart ▸ shell_unranged loops [], fun i n₀ hn₀ => ⟨n₀, hn₀, rfl⟩⟩
  have hinsts (b : BlockId) (_ : g₀.Reachable b) (d : InstId) :
      d ∈ (g₀.withLoops loops).insts b ↔ d ∈ g₀.insts b ∧ d ∉ ([] : List InstId) := by
    show d ∈ g₀.insts b ↔ _
    simp
  obtain ⟨ds, hds, hmem⟩ := halike.definitions hu ht hinsts fun i hi => nomatch hi
  unfold clearRanges
  rw [Leads.bind_iff, Leads.get_iff, Leads.bind_iff, Leads.lift_iff, hds, Yields.ok_iff]
  refine (Leads.forM (fun done g => g = (g₀.withLoops loops).mapNodes (unranged done)) hstart.symm ?_).mono
    fun _ g heq => heq ▸ steady_start ht loops fun d hd => (hmem d).mpr hd
  rintro done d rest _ hsplit rfl
  unfold Edit.setRange
  rw [Leads.modifyNode_iff]
  refine ⟨fun _ => ?_, fun hge => ?_⟩
  · unfold withNode
    rw [mapNodes_mapNodes]
    refine mapNodes_congr fun i n _ => ?_
    unfold unranged
    by_cases hi : i = d
    · subst hi
      by_cases hmem : i ∈ done <;> simp [hmem]
    · simp [hi]
  · obtain ⟨n, hn, -⟩ := ((hmem d).mp (by simp [hsplit])).exists_node hu
    rw [size_mapNodes] at hge
    exact absurd (Array.getElem?_eq_some_iff.mp hn).1 (Nat.not_lt.mpr hge)

/-! ## Inserting -/

namespace Steady

variable {placed loads gone : List InstId}

/-- Where no constraint has a place, the blocks have what they had at first, apart from what is gone. -/
theorem mem_insts_iff (h : Steady g₀ pos cs [] loads gone g) : i ∈ g.insts b ↔ i ∈ g₀.insts b ∧ i ∉ gone := by
  have hkept := h.spread.kept b
  rw [List.filter_eq_self.mpr fun i hi =>
    decide_eq_true ((h.spread.placed b i hi).resolve_right List.not_mem_nil)] at hkept
  unfold FlowGraph.insts
  rw [hkept, List.mem_filter, decide_eq_true_eq]
  rfl

variable (hu : Unconstrained g₀) (ht : Tractable g₀) (h : Steady g₀ pos cs [] loads [] g)

include ht h

theorem node_of_inst (hi : i ∈ g.insts b) : i ∈ g₀.insts b ∧ ∃ n n₀, g.nodes[i.index]? = some n ∧
    g₀.nodes[i.index]? = some n₀ ∧ shape n.inst = shape n₀.inst := by
  obtain ⟨hi₀, -⟩ := h.mem_insts_iff.mp hi
  obtain ⟨n₀, hn₀, -⟩ := ht.node_of_mem hi₀
  obtain ⟨n, hn, hshape, -⟩ := h.kept i n₀ hn₀
  exact ⟨hi₀, n, n₀, hn, hn₀, hshape⟩

theorem checksIn : ∃ is, checksIn g b = .ok is ∧ ∀ i ∈ is, i ∈ g₀.insts b ∧
    ∃ n₀, g₀.nodes[i.index]? = some n₀ ∧ n₀.inst.opcode = .checkSmi := by
  refine ⟨_, filterM_eq_ok.mpr ⟨fun i hi => ?_, rfl⟩, fun i hi => ?_⟩
  · obtain ⟨-, n, -, hn, -⟩ := h.node_of_inst ht hi
    exact ⟨_, bind_eq_ok.mpr ⟨_, opcode_eq_ok.mpr ⟨n, hn, rfl⟩, rfl⟩⟩
  · obtain ⟨hi, hcheck⟩ := List.mem_filter.mp hi
    obtain ⟨hi₀, n, n₀, hn, hn₀, hshape⟩ := h.node_of_inst ht hi
    obtain ⟨opcode, hopcode, hcheck⟩ := bind_eq_ok.mp (toOption_eq_some_iff.mp (of_decide_eq_true hcheck))
    obtain ⟨m, hm, rfl⟩ := opcode_eq_ok.mp hopcode
    obtain rfl := Option.some_inj.mp (hn.symm.trans hm)
    exact ⟨hi₀, n₀, hn₀, opcode_of_shape hshape ▸ beq_iff_eq.mp (Except.ok.inj hcheck)⟩

include hu

theorem valuesIn (hb : g₀.Reachable b) : ∃ ds, valuesIn g b = .ok ds ∧ ∀ d ∈ ds, Offers g₀ d := by
  have horder := (mem_order_iff ht.current).mpr hb
  obtain ⟨ps, hps, -⟩ := ((consistent_iff.mp hu.consistent).blocks b horder).phis
  have hphi {phi : InstId} (hphi : phi ∈ ps) : phi ∈ g₀.live b := mem_live_iff.mpr ⟨ps, hps, hphi⟩
  have hcls {d : InstId} {n : Node} (hn : g.nodes[d.index]? = some n) : g.classOf d = .ok (n.cls.getD n.ownClass) :=
    bind_eq_ok.mpr ⟨n, node_eq_ok.mpr hn, rfl⟩
  have hidx {d : InstId} {n : Node} (hn : g.nodes[d.index]? = some n) : g.ssaIndex d = .ok n.ssaIndex :=
    bind_eq_ok.mpr ⟨n, node_eq_ok.mpr hn, rfl⟩
  refine ⟨_, bind_eq_ok.mpr ⟨_, filterM_eq_ok.mpr ⟨fun i hi => ?_, rfl⟩, bind_eq_ok.mpr ⟨ps, h.alike.livePhis hps,
    bind_eq_ok.mpr ⟨_, filterM_eq_ok.mpr ⟨fun phi hmem => ?_, rfl⟩, rfl⟩⟩⟩, fun d hd => ?_⟩
  · obtain ⟨-, n, -, hn, -⟩ := h.node_of_inst ht hi
    simp only [inst_eq_ok.mpr ⟨n, hn, rfl⟩, hcls hn, hidx hn, bind, Except.bind]
    split <;> exact ⟨_, rfl⟩
  · obtain ⟨n₀, hn₀, -⟩ := (Offers.exists_node hu (.inr ⟨b, horder, .inl (hphi hmem)⟩))
    obtain ⟨n, hn, -⟩ := h.kept phi n₀ hn₀
    exact ⟨_, bind_eq_ok.mpr ⟨_, hcls hn, rfl⟩⟩
  · refine .inr ⟨b, horder, (List.mem_append.mp hd).symm.imp (fun hd => hphi (List.mem_of_mem_filter hd)) fun hd => ?_⟩
    obtain ⟨hd, hvalue⟩ := List.mem_filter.mp hd
    obtain ⟨hd₀, n, n₀, hn, hn₀, hshape⟩ := h.node_of_inst ht hd
    have hvalue := toOption_eq_some_iff.mp (of_decide_eq_true hvalue)
    simp only [inst_eq_ok.mpr ⟨n, hn, rfl⟩, bind, Except.bind] at hvalue
    refine ⟨hd₀, n₀, hn₀, ?_⟩
    rw [Inst.isDefinition, ← opcode_of_shape hshape]
    by_contra hno
    rw [Inst.isDefinition, Bool.eq_false_iff.mpr hno] at hvalue
    cases hvalue

end Steady

theorem args_ne_nil_of_checkSmi {v : Inst} (hop : v.opcode = .checkSmi) : v.args ≠ [] := by
  cases v with
  | compare c =>
    have hop : c.opcode = .checkSmi := hop
    unfold Comparison.opcode at hop
    cases hkind : c.kind <;> simp [hkind] at hop
  | unary | binary | binaryOp | unaryOp => simp [Inst.args]
  | _ => cases hop

section

variable (hu : Unconstrained g₀) (ht : Tractable g₀)

include hu ht

theorem threads_insertConstraints (h : Working g₀ pos [] s g) {checks values : List InstId}
    (hchecks : ∀ i ∈ checks, ∃ b, g₀.Reachable b ∧ i ∈ g₀.insts b ∧
      ∃ n₀, g₀.nodes[i.index]? = some n₀ ∧ n₀.inst.opcode = .checkSmi)
    (hvalues : ∀ d ∈ values, Offers g₀ d) :
    Threads False g s (insertConstraints checks values) fun _ s' g' => ∃ pos', Working g₀ pos' [] s' g' := by
  unfold insertConstraints
  rw [Threads.bind_iff]
  refine (Threads.forM_of_forall (fun s₁ g₁ => ∃ pos₁, Working g₀ pos₁ [] s₁ g₁) ⟨pos, h⟩
    fun i hi s₁ g₁ ⟨pos₁, h₁⟩ => ?_).mono fun _ s₁ g₁ h₁ => ?_
  · obtain ⟨b, hb, hmem, n₀, hn₀, hcheck⟩ := hchecks i hi
    obtain ⟨n, hn, hshape, -⟩ := h₁.steady.kept i n₀ hn₀
    obtain ⟨a, rest, hargs⟩ := List.exists_cons_of_ne_nil
      (args_ne_nil_of_checkSmi ((opcode_of_shape hshape).trans hcheck))
    have harg : n.inst.args[0]? = some a := by rw [hargs]; rfl
    have hinput : g₁.inputAt ⟨i, 0⟩ = some a := (inputAt_of_node hn rfl).trans harg
    have ha := h₁.steady.operands i n (.inl (ht.discovered hb hmem)) hn a (List.mem_of_getElem? harg)
    rw [Threads.bind_iff, Threads.getThe_iff, Threads.bind_iff, Threads.read_iff, arg_eq_ok.mpr ⟨n, hn, harg⟩,
      Yields.ok_iff]
    exact (threads_constrain hu ht h₁ ha rangeIn_unknown (p := .after i) ⟨b, hb, hmem⟩
      (fun hc => rank_after_lt hu.located (h₁.steady.behind a hc i 0 b hb hmem hinput)) fun _ heq => by cases heq).mono
        fun _ s₂ g₂ ⟨pos₂, _, h₂, _⟩ => ⟨pos₂, h₂⟩
  rw [Threads.bind_iff]
  refine (Threads.forM_of_forall (fun s₂ g₂ => ∃ pos₂, Working g₀ pos₂ [] s₂ g₂) h₁
    fun d hd s₂ g₂ ⟨pos₂, h₂⟩ => ?_).mono fun _ s₂ g₂ ⟨pos₂, h₂⟩ => ?_
  · exact (threads_constrainUses hu ht h₂ (.inl (hvalues d hd)) (fun _ _ _ _ => True) (fun _ _ => trivial)
      fun _ _ _ _ _ _ _ _ _ _ _ _ _ _ _ => trivial).mono fun _ s₃ g₃ ⟨pos₃, h₃, _⟩ => ⟨pos₃, h₃⟩
  rw [Threads.bind_iff, Threads.getThe_iff]
  refine threads_constrainFurther hu ht _ h₂ (Nat.zero_le _) ?_
  rw [Nat.zero_add]
  have heffort : effort g₀ pos₂ s₂.constraints (fun _ e => e ∈ s₂.constraints.drop 0) g₂ ≤
    g₀.nodes.size * 2 * (g₀.nodes.size + 1) := effort_le hu
  exact Nat.lt_of_le_of_lt (Nat.add_le_add_left (Nat.mul_le_mul_left 2 heffort) _) (bound_lt h₂.steady.count)

/-- All constraints find their places, and there is an end to them. -/
theorem threads_placeConstraints (loops : BlockId → Block → Option (List Nat)) :
    Threads False (g₀.withLoops loops) {} placeConstraints fun values s g =>
      (∃ pos, Working g₀ pos [] s g) ∧ ∀ d ∈ values, Offers g₀ d := by
  unfold placeConstraints
  rw [Threads.bind_iff, Threads.lift_iff]
  have hclear : Leads False (g₀.withLoops loops) clearRanges fun _ g => Steady g₀ .after [] [] [] [] g :=
    leads_clearRanges hu ht loops
  refine hclear.mono fun _ g h => ?_
  have horder := h.alike.reversePostorder
  have hreach {b : BlockId} (hb : b ∈ g.reversePostorder) : g₀.Reachable b :=
    (mem_order_iff ht.current).mp (horder ▸ hb)
  obtain ⟨checks, hchecks⟩ : ∃ checks, g.reversePostorder.mapM (checksIn g) = .ok checks :=
    exists_mapM fun b hb => (h.checksIn ht).imp fun _ => And.left
  obtain ⟨values, hvalues⟩ : ∃ values, g.reversePostorder.mapM (valuesIn g) = .ok values :=
    exists_mapM fun b hb => (h.valuesIn hu ht (hreach hb)).imp fun _ => And.left
  rw [Threads.bind_iff, Threads.getThe_iff, Threads.bind_iff, Threads.mapM_read_iff, hchecks, Yields.ok_iff,
    Threads.bind_iff, Threads.mapM_read_iff, hvalues, Yields.ok_iff, Threads.bind_iff]
  have hoffered : ∀ d ∈ values.flatten, Offers g₀ d := by
    intro d hd
    obtain ⟨ds, hds, hd⟩ := List.mem_flatten.mp hd
    obtain ⟨b, hb, hrun⟩ := forall₂_mem_right (mapM_eq_ok.mp hvalues) hds
    obtain ⟨ds', hds', hall⟩ := h.valuesIn hu ht (hreach hb)
    obtain rfl := Except.ok.inj (hrun.symm.trans hds')
    exact hall d hd
  refine (threads_insertConstraints hu ht (s := {}) ⟨h, fun x hx => nomatch hx⟩ (fun i hi => ?_) hoffered).mono
    fun _ s₁ g₁ h₁ => ⟨h₁, hoffered⟩
  obtain ⟨is, his, hi⟩ := List.mem_flatten.mp hi
  obtain ⟨b, hb, hrun⟩ := forall₂_mem_right (mapM_eq_ok.mp hchecks) his
  obtain ⟨is', his', hall⟩ := h.checksIn ht (b := b)
  obtain rfl := Except.ok.inj (hrun.symm.trans his')
  exact ⟨b, hreach hb, hall i hi⟩

end

end Midend.Ranges
