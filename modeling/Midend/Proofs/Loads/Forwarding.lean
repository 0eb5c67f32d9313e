import Midend.Proofs.Execution.Definite
import Midend.Proofs.Loads.Memory

/-! # Executions without loads

What a graph and the one without its redundant loads have in common, said without the analysis that found them: which
definition stands in for which, what is known to be in memory at each point, and which phis merge what is known. From
this it follows that every execution of the one graph has its like in the other.
-/

namespace Midend.Loads

open Midend.Flow FlowGraph Ssa Execution

structure Forwarding where
  /-- What a definition gave way to. -/
  standIn : InstId → InstId
  /-- The numbered places. -/
  place : Nat → Option Place
  /-- A new phi of the block. Those that nothing reads are thought to be there as well. -/
  merges : BlockId → InstId → Prop
  /-- The inputs of new phis. -/
  input : InstId → Nat → Option InstId
  /-- In a block, in front of these instructions, the place is known to hold the definition. -/
  known : BlockId → List InstId → Nat → InstId → Prop

namespace Forwarding

variable {g g' : FlowGraph} {f : Forwarding}

/-- The phi takes what is known of the place at the ends of the predecessors. -/
def Collects (g : FlowGraph) (f : Forwarding) (c : BlockId) (k : Nat) (phi : InstId) : Prop :=
  ∀ j b, g.Reachable b → (predsOf g c)[j]? = some b → ∃ u, f.input phi j = some u ∧ f.known b [] k u

/-- Nothing in the graph reads the phi, so that it was left out. -/
def Dropped (g' : FlowGraph) (f : Forwarding) (d : InstId) : Prop := ∃ c, f.merges c d ∧ ¬ LivePhi g' c d

/-- What is known behind an instruction was known before, and the instruction does not write the place, or it is what
the instruction stores or loads. -/
def KnownBehind (f : Forwarding) (i : InstId) (d : Inst) (before : Nat → InstId → Prop) (k : Nat) (w : InstId) : Prop :=
  (before k w ∧ ∀ p, f.place k = some p → Leaves d p) ∨
    (∃ p q v, f.place k = some p ∧ storedPlace? d = some (q, some v) ∧ p.map f.standIn = q.map f.standIn ∧
      w = f.standIn v) ∨
    ∃ p, f.place k = some p ∧ loadedPlace? d = some p ∧ w = f.standIn i

structure Sound (g g' : FlowGraph) (f : Forwarding) : Prop where
  insts : ∀ b, g.Reachable b → g'.insts b = (g.insts b).filter (g'.isPlaced ·)
  preds : ∀ b, predsOf g' b = predsOf g b
  entries : g'.next graphEntry = g.next graphEntry
  initial : g'.initialDefinitions = g.initialDefinitions
  shapes : ∀ (d : InstId) n, g.nodes[d.index]? = some n →
    ∃ n' h, g'.nodes[d.index]? = some n' ∧ n'.inst = n.inst.mapArgs h
  /-- What stays reads the definitions that stand in for its inputs. -/
  kept : ∀ b i n, g.Reachable b → i ∈ g'.insts b ∨ LivePhi g b i → g.nodes[i.index]? = some n →
    ∃ n', g'.nodes[i.index]? = some n' ∧ n'.inst = n.inst.mapArgs fun _ => f.standIn
  phis : ∀ b d, g.Reachable b → LivePhi g b d → LivePhi g' b d
  newPhis : ∀ b d, g.Reachable b → LivePhi g' b d → LivePhi g b d ∨ f.merges b d
  inputs : ∀ b d j, f.merges b d → LivePhi g' b d → inputOf g' d j = f.input d j
  fresh : ∀ b d, f.merges b d → g.nodes.size ≤ d.index
  unique : ∀ b c d, f.merges b d → f.merges c d → b = c
  collects : ∀ c d, f.merges c d → ∃ k, f.Collects g c k d
  gone : ∀ b d, d ∈ g.insts b → g'.isPlaced d = false → g.Reachable b
  /-- Only a load that was taken out gives way to another definition. -/
  same : ∀ d, Evaluates g d → g.isPlaced d = false ∨ g'.isPlaced d = true → f.standIn d = d
  reads : ∀ b i n a, g.Reachable b → i ∈ g'.insts b ∨ LivePhi g' b i → g'.nodes[i.index]? = some n → a ∈ n.inst.args →
    ¬ Dropped g' f a
  numbered : ∀ b rest k w, f.known b rest k w → ∃ p, f.place k = some p
  step : ∀ b front i rest n k w, g.Reachable b → g.insts b = front ++ i :: rest → g.nodes[i.index]? = some n →
    f.known b rest k w → f.KnownBehind i n.inst (f.known b (i :: rest)) k w
  removed : ∀ b front i rest n, g.Reachable b → g.insts b = front ++ i :: rest → g.nodes[i.index]? = some n →
    g'.isPlaced i = false →
      ∃ k p, loadedPlace? n.inst = some p ∧ f.place k = some p ∧ f.known b (i :: rest) k (f.standIn i)
  edge : ∀ (c : BlockId) k w, g.Reachable c → f.known c (g.insts c) k w →
    (∀ (j : Nat) b, g.Reachable b → (predsOf g c)[j]? = some b → f.known b [] k w) ∨ f.merges c w ∧ f.Collects g c k w
  start : ∀ k w, ¬ f.known graphEntry [] k w

/-! ## Executions side by side -/

noncomputable def enter (g : FlowGraph) (f : Forwarding) (c : BlockId) (k : Nat) (τ : Values) : Values := by
  classical exact fun d => if LivePhi g c d then (inputOf g d k).bind fun a => τ (f.standIn a)
    else if f.merges c d then (f.input d k).bind τ else τ d

theorem enter_phi {c : BlockId} {k : Nat} {τ : Values} {d : InstId} (h : LivePhi g c d) :
    enter g f c k τ d = (inputOf g d k).bind fun a => τ (f.standIn a) := if_pos h

theorem enter_other {c : BlockId} {k : Nat} {τ : Values} {d : InstId} (h : ¬ LivePhi g c d) (h' : ¬ f.merges c d) :
    enter g f c k τ d = τ d := (if_neg h).trans (if_neg h')

theorem enter_merges {c : BlockId} {k : Nat} {τ : Values} {d : InstId} (h : ¬ LivePhi g c d) (h' : f.merges c d) :
    enter g f c k τ d = (f.input d k).bind τ := (if_neg h).trans (if_pos h')

/-- Control goes on to another block, with the memory `μ'`. -/
inductive Exits (g : FlowGraph) : State Memory → BlockId → Memory → Prop
  | begin {c : BlockId} {σ : Values} {μ : Memory} (hc : g.Edge graphEntry c) : Exits g ⟨graphEntry, [], σ, μ⟩ c μ
  | jump {b c : BlockId} {i : InstId} {rest : List InstId} {σ : Values} {μ μ' : Memory} {n : Node}
      (hn : g.nodes[i.index]? = some n) (hterm : n.inst.isTerminator = true) (hc : c ∈ n.inst.successors)
      (hargs : ∀ a ∈ n.inst.args, (σ a).isSome = true) (hdoes : memoryMeaning.does σ μ i n.inst none μ') :
      Exits g ⟨b, i :: rest, σ, μ⟩ c μ'

/-- An execution of `g`, and beside it the values in the graph without the loads. -/
inductive Beside (g g' : FlowGraph) (f : Forwarding) : State Memory → Values → Prop
  | start {s : State Memory} (hs : Start g s) : Beside g g' f s s.values
  | define {b : BlockId} {i : InstId} {rest : List InstId} {σ τ : Values} {μ μ' : Memory} {n : Node} {v : Value}
      (h : Beside g g' f ⟨b, i :: rest, σ, μ⟩ τ) (hn : g.nodes[i.index]? = some n) (hdef : n.inst.isDefinition = true)
      (hargs : ∀ a ∈ n.inst.args, (σ a).isSome = true) (hdoes : memoryMeaning.does σ μ i n.inst (some v) μ') :
      Beside g g' f ⟨b, rest, Function.update σ i (some v), μ'⟩
        (if g'.isPlaced i then Function.update τ i (some v) else τ)
  | pass {b : BlockId} {i : InstId} {rest : List InstId} {σ τ : Values} {μ μ' : Memory} {n : Node}
      (h : Beside g g' f ⟨b, i :: rest, σ, μ⟩ τ) (hn : g.nodes[i.index]? = some n) (hdef : n.inst.isDefinition = false)
      (hterm : n.inst.isTerminator = false) (hargs : ∀ a ∈ n.inst.args, (σ a).isSome = true)
      (hdoes : memoryMeaning.does σ μ i n.inst none μ') : Beside g g' f ⟨b, rest, σ, μ'⟩ τ
  | cross {s : State Memory} {c : BlockId} {k : Nat} {σ τ : Values} {μ : Memory} (h : Beside g g' f s τ)
      (hexits : Exits g s c μ) (hk : (predsOf g c)[k]? = some s.block)
      (hcross : ∀ d, (LivePhi g c d → ∃ a v, inputOf g d k = some a ∧ s.values a = some v ∧ σ d = some v) ∧
        (¬ LivePhi g c d → σ d = s.values d)) :
      Beside g g' f ⟨c, g.insts c, σ, μ⟩ (enter g f c k τ)

theorem exists_beside {s : State Memory} (h : Reaches g memoryMeaning s) : ∃ τ, Beside g g' f s τ := by
  refine h.induction (fun s => ∃ τ, Beside g g' f s τ) (fun s hs => ⟨_, .start hs⟩) ?_
  rintro s t - ⟨τ, hτ⟩ hstep
  cases hstep with
  | define hn hdef hargs hdoes => exact ⟨_, hτ.define hn hdef hargs hdoes⟩
  | pass hn hdef hterm hargs hdoes => exact ⟨_, hτ.pass hn hdef hterm hargs hdoes⟩
  | jump hn hterm hc hargs hdoes hgoes hcross =>
    obtain ⟨k, hk, hcross⟩ := hcross
    exact ⟨_, hτ.cross (.jump hn hterm hc hargs hdoes) hk hcross⟩
  | begin hc hcross =>
    obtain ⟨k, hk, hcross⟩ := hcross
    exact ⟨_, hτ.cross (.begin hc) hk hcross⟩

variable {s : State Memory} {τ : Values} {b c : BlockId} {i d w : InstId} {front rest : List InstId} {σ : Values}
  {μ μ' : Memory} {n : Node} {k : Nat} {p : Place}

/-- The execution is in a block, in front of some of its instructions. -/
structure Within (g : FlowGraph) (s : State Memory) : Prop where
  reachable : g.Reachable s.block
  rest : ∃ front, g.insts s.block = front ++ s.rest

theorem Within.next (h : Within g ⟨b, i :: rest, σ, μ⟩) {σ' : Values} : Within g ⟨b, rest, σ', μ'⟩ := by
  obtain ⟨front, hfront⟩ := h.rest
  exact ⟨h.reachable, front ++ [i], by simpa using hfront⟩

theorem Within.edge (h : Within g s) (hg : Definite g) (hexits : Exits g s c μ) : g.Edge s.block c := by
  cases hexits with
  | begin hc => exact hc
  | jump hn hterm hc =>
    obtain ⟨front, hfront⟩ := h.rest
    exact hg.edge_of_terminator h.reachable (by rw [hfront]; simp) hn hterm hc

section

variable (hg : Definite g) (hf : f.Sound g g')

include hg hf

omit hf in
theorem Beside.within (h : Beside g g' f s τ) : Within g s := by
  induction h with
  | start hs =>
    refine ⟨hs.block ▸ .refl, [], ?_⟩
    rw [hs.block, hs.rest, hg.entry]
    rfl
  | define h hn hdef hargs hdoes ih => exact ih.next
  | pass h hn hdef hterm hargs hdoes ih => exact ih.next
  | cross h hexits hk hcross ih => exact ⟨ih.reachable.tail (ih.edge hg hexits), [], rfl⟩

/-! ## Everything that is known has a value -/

/-- What is known has a value, and so have the operands of the places. -/
def Ready (f : Forwarding) (b : BlockId) (rest : List InstId) (τ : Values) : Prop :=
  ∀ k w p, f.known b rest k w → f.place k = some p →
    (τ w).isSome = true ∧ ∀ o ∈ p.operands, (τ (f.standIn o)).isSome = true

/-- What has a value in the one execution has one in the other. -/
def Given (g : FlowGraph) (f : Forwarding) (σ τ : Values) : Prop :=
  ∀ d, Evaluates g d → (σ d).isSome = true → (τ (f.standIn d)).isSome = true

omit hf in
theorem standIn_isSome (hgiven : Given g f σ τ) (hb : g.Reachable b) (hi : i ∈ g.insts b)
    (hn : g.nodes[i.index]? = some n) (hargs : ∀ a ∈ n.inst.args, (σ a).isSome = true) :
    ∀ a ∈ n.inst.args, (τ (f.standIn a)).isSome = true :=
  fun a ha => hgiven a (hg.evaluates_input hb (.inl hi) hn ha) (hargs a ha)

theorem ready_step (hready : Ready f b (i :: rest) τ) (hgiven : Given g f σ τ) (hb : g.Reachable b)
    (hsplit : g.insts b = front ++ i :: rest) (hn : g.nodes[i.index]? = some n)
    (hargs : ∀ a ∈ n.inst.args, (σ a).isSome = true) {τ' : Values}
    (hmono : ∀ d, (τ d).isSome = true → (τ' d).isSome = true)
    (hload : n.inst.isDefinition = true → (τ' (f.standIn i)).isSome = true) : Ready f b rest τ' := by
  intro k w p hknown hp
  have hi : i ∈ g.insts b := by rw [hsplit]; simp
  have hsome := standIn_isSome hg hgiven hb hi hn hargs
  obtain ⟨hbefore, -⟩ | ⟨p', q, v, hp', hstore, hsame, rfl⟩ | ⟨p', hp', hplace, rfl⟩ :=
    hf.step b front i rest n k w hb hsplit hn hknown
  · obtain ⟨hw, hoperands⟩ := hready k w p hbefore hp
    exact ⟨hmono w hw, fun o ho => hmono _ (hoperands o ho)⟩
  · obtain rfl := Option.some_inj.mp (hp.symm.trans hp')
    obtain ⟨hsub, hvalue⟩ := operands_subset_of_stores hstore
    refine ⟨hmono _ (hsome v (hvalue v rfl)), fun o ho => ?_⟩
    have hmem : f.standIn o ∈ (q.map f.standIn).operands := by
      rw [← hsame, Place.operands_map]
      exact List.mem_map_of_mem ho
    rw [Place.operands_map] at hmem
    obtain ⟨o', ho', heq⟩ := List.mem_map.mp hmem
    exact heq ▸ hmono _ (hsome o' (hsub ho'))
  · obtain rfl := Option.some_inj.mp (hp.symm.trans hp')
    exact ⟨hload (isDefinition_of_loads hplace), fun o ho => hmono _ (hsome o (operands_subset_of_loads hplace ho))⟩

theorem known_exit (hw : Within g s) (hexits : Exits g s c μ) (hknown : f.known s.block [] k w) :
    f.known s.block s.rest k w ∧ ∀ σ', f.place k = some p → p.contents σ' μ = p.contents σ' s.memory := by
  cases hexits with
  | begin hc => exact ⟨hknown, fun _ _ => rfl⟩
  | @jump b _ i rest _ _ _ n hn hterm hc hargs hdoes =>
    obtain ⟨front, hfront⟩ := hw.rest
    obtain rfl := hg.rest_of_terminator hw.reachable hfront hn hterm
    obtain ⟨hbefore, hleaves⟩ | ⟨_, _, _, -, hstore, -⟩ | ⟨_, -, hload, -⟩ :=
      hf.step b front i [] n k w hw.reachable hfront hn hknown
    · exact ⟨hbefore, fun σ' hp => contents_of_leaves (hleaves p hp) hdoes hargs⟩
    · cases hd : n.inst <;> simp [hd, Inst.successors, storedPlace?] at hc hstore
    · rw [not_isTerminator_of_loads hload] at hterm
      cases hterm

theorem isSome_enter (hw : Within g s) (hexits : Exits g s c μ) (hk : (predsOf g c)[k]? = some s.block)
    (hready : Ready f s.block s.rest τ) (hmerges : f.merges c d) (hnot : ¬ LivePhi g c d) :
    (enter g f c k τ d).isSome = true := by
  obtain ⟨m, hcollects⟩ := hf.collects c d hmerges
  obtain ⟨u, hu, hknown⟩ := hcollects k s.block hw.reachable hk
  obtain ⟨p, hp⟩ := hf.numbered _ _ _ _ hknown
  have hknown := (known_exit (p := p) hg hf hw hexits hknown).1
  rw [enter_merges hnot hmerges, hu]
  exact (hready m u p hknown hp).1

theorem isSome_cross (hw : Within g s) (hexits : Exits g s c μ) (hk : (predsOf g c)[k]? = some s.block)
    (hready : Ready f s.block s.rest τ) (hgiven : Given g f s.values τ)
    (hcross : ∀ d, LivePhi g c d → ∃ a v, inputOf g d k = some a ∧ s.values a = some v ∧ σ d = some v) :
    (∀ d, LivePhi g c d → (enter g f c k τ d).isSome = true) ∧
      ∀ d, (τ d).isSome = true → (enter g f c k τ d).isSome = true := by
  have hlive : ∀ d, LivePhi g c d → (enter g f c k τ d).isSome = true := by
    intro d hd
    obtain ⟨a, v, ha, hv, -⟩ := hcross d hd
    obtain ⟨m, hm, harg⟩ := Option.bind_eq_some_iff.mp ha
    have hc : g.Reachable c := hw.reachable.tail (hw.edge hg hexits)
    have heval := hg.evaluates_input hc (.inr hd) hm (List.mem_of_getElem? harg)
    rw [enter_phi hd, ha]
    exact hgiven a heval (by rw [hv]; rfl)
  refine ⟨hlive, fun d hd => ?_⟩
  by_cases hphi : LivePhi g c d
  · exact hlive d hphi
  by_cases hmerges : f.merges c d
  · exact isSome_enter hg hf hw hexits hk hready hmerges hphi
  · rwa [enter_other hphi hmerges]

theorem Beside.ready (h : Beside g g' f s τ) : Ready f s.block s.rest τ ∧ Given g f s.values τ := by
  induction h with
  | @start s hs =>
    refine ⟨fun k w p hknown _ => ?_, fun d hd hsome => ?_⟩
    · rw [hs.block, hs.rest] at hknown
      exact absurd hknown (hf.start k w)
    · by_cases hinitial : d ∈ g.initialDefinitions
      · obtain ⟨n, -, -, hplaced⟩ := hg.initial d hinitial
        rwa [hf.same d hd (.inl hplaced)]
      · rw [hs.others d hinitial] at hsome
        cases hsome
  | @define b i rest σ τ μ μ' n v h hn hdef hargs hdoes ih =>
    obtain ⟨hready, hgiven⟩ := ih
    obtain ⟨hb, front, hfront⟩ := h.within hg
    have hi : i ∈ g.insts b := by rw [hfront]; simp
    have hmono : ∀ d, (τ d).isSome = true →
        ((if g'.isPlaced i then Function.update τ i (some v) else τ) d).isSome = true := by
      intro d hd
      split
      · by_cases heq : d = i
        · simp [heq]
        · simpa [heq] using hd
      · exact hd
    have hload : ((if g'.isPlaced i then Function.update τ i (some v) else τ) (f.standIn i)).isSome = true := by
      split
      case isTrue hplaced => simp [hf.same i (.inr (.inl ⟨b, hi⟩)) (.inr hplaced)]
      case isFalse hplaced =>
        obtain ⟨k, p, -, hp, hknown⟩ := hf.removed b front i rest n hb hfront hn (by simpa using hplaced)
        exact (hready k _ p hknown hp).1
    refine ⟨ready_step hg hf hready hgiven hb hfront hn hargs hmono fun _ => hload, fun d hd hsome => ?_⟩
    by_cases heq : d = i
    · exact heq ▸ hload
    · exact hmono _ (hgiven d hd (by simpa [heq] using hsome))
  | @pass b i rest σ τ μ μ' n h hn hdef hterm hargs hdoes ih =>
    obtain ⟨hb, front, hfront⟩ := h.within hg
    refine ⟨ready_step hg hf ih.1 ih.2 hb hfront hn hargs (fun _ h => h) fun h => ?_, ih.2⟩
    rw [hdef] at h
    cases h
  | @cross s c k σ τ μ h hexits hk hcross ih =>
    obtain ⟨hready, hgiven⟩ := ih
    have hw := h.within hg
    have hc : g.Reachable c := hw.reachable.tail (hw.edge hg hexits)
    obtain ⟨hlive, hmono⟩ := isSome_cross hg hf hw hexits hk hready hgiven fun d hd => (hcross d).1 hd
    refine ⟨fun m w p hknown hp => ?_, fun d hd hsome => ?_⟩
    · obtain hall | ⟨hmerges, hcollects⟩ := hf.edge c m w hc hknown
      · have hknown := (known_exit (p := p) hg hf hw hexits (hall k s.block hw.reachable hk)).1
        obtain ⟨hw', hoperands⟩ := hready m w p hknown hp
        exact ⟨hmono w hw', fun o ho => hmono _ (hoperands o ho)⟩
      · obtain ⟨u, hu, hknown⟩ := hcollects k s.block hw.reachable hk
        have hknown := (known_exit (p := p) hg hf hw hexits hknown).1
        refine ⟨?_, fun o ho => hmono _ ((hready m u p hknown hp).2 o ho)⟩
        by_cases hphi : LivePhi g c w
        · exact hlive w hphi
        · exact isSome_enter hg hf hw hexits hk hready hmerges hphi
    · by_cases hphi : LivePhi g c d
      · rw [hf.same d hd (.inl (hg.isPlaced_of_livePhi hphi))]
        exact hlive d hphi
      · exact hmono _ (hgiven d hd ((hcross d).2 hphi ▸ hsome))

/-! ## The first time -/

omit hg in
theorem not_merges_of_lt (hd : d.index < g.nodes.size) : ¬ f.merges c d := fun h =>
  Nat.lt_irrefl _ (Nat.lt_of_lt_of_le hd (hf.fresh c d h))

theorem enter_of_mem {τ : Values} (hi : i ∈ g.insts b) : enter g f c k τ i = τ i :=
  enter_other (fun h => hg.not_placed_of_livePhi h hi) (not_merges_of_lt hf (hg.lt_size hi))

theorem Beside.exists_first (h : Beside g g' f s τ) (hi : i ∈ g.insts b) (hn : g.nodes[i.index]? = some n)
    (hsome : (τ i).isSome = true) : ∃ s₀ τ₀ rest, Beside g g' f s₀ τ₀ ∧ s₀.block = b ∧ s₀.rest = i :: rest ∧
      (∀ a ∈ n.inst.args, (s₀.values a).isSome = true) ∧ τ₀ i = none := by
  induction h with
  | start hs =>
    rw [hs.others i (hg.not_initial hi)] at hsome
    cases hsome
  | @define b' j rest σ τ μ μ' m v h hm hdef hargs hdoes ih =>
    by_cases hsame : i = j
    · subst hsame
      cases hτ : τ i with
      | some v => exact ih (by rw [hτ]; rfl)
      | none =>
        obtain ⟨-, front, hfront⟩ := h.within hg
        have hblock : b' = b := hg.block_unique (by rw [hfront]; simp) hi
        obtain rfl := Option.some_inj.mp (hn.symm.trans hm)
        exact ⟨_, τ, rest, h, hblock, rfl, hargs, hτ⟩
    · refine ih ?_
      split at hsome
      · simpa [hsame] using hsome
      · exact hsome
  | pass h hn hdef hterm hargs hdoes ih => exact ih hsome
  | cross h hexits hk hcross ih => exact ih (by rwa [enter_of_mem hg hf hi] at hsome)

theorem Beside.first (h : Beside g g' f ⟨b, i :: rest, σ, μ⟩ τ) (hn : g.nodes[i.index]? = some n)
    (hargs : ∀ a ∈ n.inst.args, (σ a).isSome = true) : ∃ s₀ τ₀, Beside g g' f s₀ τ₀ ∧ s₀.block = b ∧
      s₀.rest = i :: rest ∧ (∀ a ∈ n.inst.args, (s₀.values a).isSome = true) ∧ τ₀ i = none := by
  cases hτ : τ i with
  | none => exact ⟨_, τ, h, rfl, rfl, hargs, hτ⟩
  | some v =>
    obtain ⟨-, front, hfront⟩ := h.within hg
    obtain ⟨s₀, τ₀, rest₀, h₀, rfl, hrest, hargs₀, hnone⟩ :=
      h.exists_first hg hf (by rw [hfront]; simp) hn (by rw [hτ]; rfl)
    obtain ⟨-, front₀, hfront₀⟩ := h₀.within hg
    rw [hrest] at hfront₀
    exact ⟨s₀, τ₀, h₀, rfl, (hg.split_unique hfront hfront₀).2 ▸ hrest, hargs₀, hnone⟩

theorem Beside.independent (h : Beside g g' f ⟨b, i :: rest, σ, μ⟩ τ) (hn : g.nodes[i.index]? = some n)
    (hargs : ∀ a ∈ n.inst.args, (σ a).isSome = true) :
    (∀ k w p, f.known b (i :: rest) k w → f.place k = some p → w ≠ i ∧ ∀ o ∈ p.operands, f.standIn o ≠ i) ∧
      ∀ a ∈ n.inst.args, f.standIn a ≠ i := by
  obtain ⟨s₀, τ₀, h₀, rfl, hrest, hargs₀, hnone⟩ := h.first hg hf hn hargs
  obtain ⟨hready, hgiven⟩ := h₀.ready hg hf
  obtain ⟨hb, front, hfront⟩ := h₀.within hg
  have hne {d : InstId} (hd : (τ₀ d).isSome = true) : d ≠ i := by
    rintro rfl
    rw [hnone] at hd
    cases hd
  rw [hrest] at hready hfront
  refine ⟨fun k w p hknown hp => ?_, fun a ha => ?_⟩
  · obtain ⟨hw, hoperands⟩ := hready k w p hknown hp
    exact ⟨hne hw, fun o ho => hne (hoperands o ho)⟩
  · exact hne (standIn_isSome hg hgiven hb (by rw [hfront]; simp) hn hargs₀ a ha)

def Takes (g : FlowGraph) (f : Forwarding) (c : BlockId) (d : InstId) : Prop := LivePhi g c d ∨ f.merges c d

omit hg hf in
theorem enter_of_not_takes {τ : Values} (h : ¬ Takes g f c d) : enter g f c k τ d = τ d :=
  enter_other (fun h' => h (.inl h')) fun h' => h (.inr h')

theorem Takes.unique (hb : g.Reachable b) (hc : g.Reachable c) (h : Takes g f b d) (h' : Takes g f c d) : b = c := by
  have hlt {a : BlockId} (h : LivePhi g a d) : d.index < g.nodes.size :=
    hg.lt_size_of_evaluates (.inr (.inr ⟨a, h⟩))
  obtain h | h := h <;> obtain h' | h' := h'
  · exact hg.phi_unique hb hc h h'
  · exact absurd h' (not_merges_of_lt hf (hlt h))
  · exact absurd h (not_merges_of_lt hf (hlt h'))
  · exact hf.unique b c d h h'

theorem Takes.not_mem (h : Takes g f c d) : d ∉ g.insts b := by
  intro hd
  obtain h | h := h
  · exact hg.not_placed_of_livePhi h hd
  · exact not_merges_of_lt hf (hg.lt_size hd) h

theorem Takes.not_initial (h : Takes g f c d) : d ∉ g.initialDefinitions := by
  intro hd
  obtain h | h := h
  · exact hg.not_initial_of_livePhi h hd
  · exact not_merges_of_lt hf (hg.lt_size_of_evaluates (.inl hd)) h

theorem Beside.exists_first_cross (h : Beside g g' f s τ) (hc : g.Reachable c) (htakes : Takes g f c d)
    (hsome : (τ d).isSome = true) : ∃ s₀ τ₀, ∃ j : Nat, ∃ μ₀, Beside g g' f s₀ τ₀ ∧ Exits g s₀ c μ₀ ∧
      (predsOf g c)[j]? = some s₀.block ∧ τ₀ d = none := by
  induction h with
  | start hs =>
    rw [hs.others d (htakes.not_initial hg hf)] at hsome
    cases hsome
  | @define b i rest σ τ μ μ' m v h hm hdef hargs hdoes ih =>
    obtain ⟨-, front, hfront⟩ := h.within hg
    have hne : d ≠ i := by
      rintro rfl
      exact htakes.not_mem hg hf (b := b) (by rw [hfront]; simp)
    refine ih ?_
    split at hsome
    · simpa [hne] using hsome
    · exact hsome
  | pass h hn hdef hterm hargs hdoes ih => exact ih hsome
  | @cross s c' j σ τ μ h hexits hk hcross ih =>
    by_cases htakes' : Takes g f c' d
    · have hw := h.within hg
      obtain rfl := Takes.unique hg hf hc (hw.reachable.tail (hw.edge hg hexits)) htakes htakes'
      cases hτ : τ d with
      | none => exact ⟨s, τ, j, μ, h, hexits, hk, hτ⟩
      | some v => exact ih (by rw [hτ]; rfl)
    · exact ih (by rwa [enter_of_not_takes htakes'] at hsome)

theorem Beside.first_cross (h : Beside g g' f s τ) (hexits : Exits g s c μ) (hk : (predsOf g c)[k]? = some s.block)
    (htakes : Takes g f c d) : ∃ s₀ τ₀, ∃ j : Nat, ∃ μ₀, Beside g g' f s₀ τ₀ ∧ Exits g s₀ c μ₀ ∧
      (predsOf g c)[j]? = some s₀.block ∧ τ₀ d = none := by
  cases hτ : τ d with
  | none => exact ⟨s, τ, k, μ, h, hexits, hk, hτ⟩
  | some v =>
    have hw := h.within hg
    exact h.exists_first_cross hg hf (hw.reachable.tail (hw.edge hg hexits)) htakes (by rw [hτ]; rfl)

theorem Beside.independent_cross (h : Beside g g' f s τ) (hexits : Exits g s c μ)
    (hk : (predsOf g c)[k]? = some s.block) (htakes : Takes g f c d) :
    ∃ (j : Nat) (b : BlockId), g.Reachable b ∧ (predsOf g c)[j]? = some b ∧
      ∀ m w p, f.known b [] m w → f.place m = some p → w ≠ d ∧ ∀ o ∈ p.operands, f.standIn o ≠ d := by
  obtain ⟨s₀, τ₀, j, μ₀, h₀, hexits₀, hj, hnone⟩ := h.first_cross hg hf hexits hk htakes
  have hw := h₀.within hg
  refine ⟨j, s₀.block, hw.reachable, hj, fun m w p hknown hp => ?_⟩
  have hknown := (known_exit (p := p) hg hf hw hexits₀ hknown).1
  obtain ⟨hsome, hoperands⟩ := (h₀.ready hg hf).1 m w p hknown hp
  have hne {x : InstId} (hx : (τ₀ x).isSome = true) : x ≠ d := by
    rintro rfl
    rw [hnone] at hx
    cases hx
  exact ⟨hne hsome, fun o ho => hne (hoperands o ho)⟩

/-! ## Paths without a load -/

def Missed (g : FlowGraph) (b : BlockId) (rest : List InstId) (d : InstId) : Prop :=
  ∃ path front, g.IsPath path ∧ path.headD graphEntry = b ∧ g.insts b = front ++ rest ∧ d ∉ g.arrived path ++ front

omit hg hf in
theorem Missed.next (h : Missed g b (i :: rest) d) (hne : d ≠ i) : Missed g b rest d := by
  obtain ⟨path, front, hpath, hhead, hfront, hmiss⟩ := h
  refine ⟨path, front ++ [i], hpath, hhead, by simpa using hfront, ?_⟩
  simpa [hne] using hmiss

structure Gone (g g' : FlowGraph) (d : InstId) : Prop where
  placed : ∃ b, d ∈ g.insts b
  removed : g'.isPlaced d = false

theorem Gone.exists_load (h : Gone g g' d) : ∃ n p, g.nodes[d.index]? = some n ∧ loadedPlace? n.inst = some p := by
  obtain ⟨b, hd⟩ := h.placed
  have hb := hf.gone b d hd h.removed
  obtain ⟨n, last, hn, -⟩ := hg.inst_holds hb hd
  obtain ⟨front, rest, hsplit⟩ := List.append_of_mem hd
  obtain ⟨k, p, hload, -⟩ := hf.removed b front d rest n hb hsplit hn h.removed
  exact ⟨n, p, hn, hload⟩

theorem Gone.not_mem_rest (h : Gone g g' d) (hw : Within g s) (hexits : Exits g s c μ) : d ∉ s.rest := by
  cases hexits with
  | begin => exact List.not_mem_nil
  | jump hn hterm hc hargs hdoes =>
    obtain ⟨front, hfront⟩ := hw.rest
    obtain rfl := hg.rest_of_terminator hw.reachable hfront hn hterm
    rw [List.mem_singleton]
    rintro rfl
    obtain ⟨m, p, hm, hload⟩ := h.exists_load hg hf
    obtain rfl := Option.some_inj.mp (hn.symm.trans hm)
    rw [not_isTerminator_of_loads hload] at hterm
    cases hterm

theorem Beside.none_of_gone (h : Beside g g' f s τ) (hgone : Gone g g' d) : τ d = none := by
  obtain ⟨b, hd⟩ := hgone.placed
  induction h with
  | start hs => exact hs.others d (hg.not_initial hd)
  | @define b i rest σ τ μ μ' n v h hn hdef hargs hdoes ih =>
    split
    case isTrue hplaced =>
      have hne : d ≠ i := by
        rintro rfl
        rw [hgone.removed] at hplaced
        cases hplaced
      rw [Function.update_of_ne hne, ih]
    case isFalse => exact ih
  | pass h hn hdef hterm hargs hdoes ih => exact ih
  | cross h hexits hk hcross ih => rw [enter_of_mem hg hf hd, ih]

theorem Missed.cross (h : Missed g s.block s.rest d) (hgone : Gone g g' d) (hw : Within g s) (hexits : Exits g s c μ) :
    Missed g c (g.insts c) d := by
  obtain ⟨path, front, hpath, hhead, hfront, hmiss⟩ := h
  have hrest := hgone.not_mem_rest hg hf hw hexits
  have hlive : d ∉ g.live c := by
    intro hd
    obtain ⟨ps, hps, hphi⟩ := live_iff.mp hd
    obtain ⟨b, hb⟩ := hgone.placed
    exact hg.not_placed_of_livePhi hphi hb
  refine ⟨c :: path, [], .cons (by rw [hhead]; exact hw.edge hg hexits) hpath, rfl, rfl, ?_⟩
  rw [List.append_nil, arrived, hhead, hfront]
  simp only [List.mem_append, not_or] at hmiss ⊢
  exact ⟨⟨hmiss.1, hmiss.2, hrest⟩, hlive⟩

theorem Beside.missed (h : Beside g g' f s τ) (hgone : Gone g g' d) :
    (τ (f.standIn d)).isSome = true ∨ Missed g s.block s.rest d := by
  induction h with
  | @start s hs =>
    refine .inr ⟨[], [], .nil, hs.block.symm, ?_, ?_⟩
    · rw [hs.block, hs.rest, hg.entry]
      rfl
    · exact List.not_mem_nil
  | @define b i rest σ τ μ μ' n v h hn hdef hargs hdoes ih =>
    by_cases hsame : d = i
    · subst hsame
      obtain ⟨hb, front, hfront⟩ := h.within hg
      obtain ⟨k, p, -, hp, hknown⟩ := hf.removed b front d rest n hb hfront hn hgone.removed
      left
      rw [hgone.removed, if_neg Bool.false_ne_true]
      exact ((h.ready hg hf).1 k _ p hknown hp).1
    · refine ih.imp (fun hsome => ?_) fun hmiss => hmiss.next hsame
      split
      · by_cases heq : f.standIn d = i
        · simp [heq]
        · simpa [heq] using hsome
      · exact hsome
  | @pass b i rest σ τ μ μ' n h hn hdef hterm hargs hdoes ih =>
    refine ih.imp_right fun hmiss => hmiss.next ?_
    rintro rfl
    obtain ⟨m, p, hm, hload⟩ := hgone.exists_load hg hf
    obtain rfl := Option.some_inj.mp (hn.symm.trans hm)
    rw [isDefinition_of_loads hload] at hdef
    cases hdef
  | @cross s c k σ τ μ h hexits hk hcross ih =>
    have hw := h.within hg
    obtain ⟨hready, hgiven⟩ := h.ready hg hf
    obtain ⟨-, hmono⟩ := isSome_cross hg hf hw hexits hk hready hgiven fun d hd => (hcross d).1 hd
    exact ih.imp (hmono _) fun hmiss => hmiss.cross hg hf hgone hw hexits

/-! ## The same values -/

/-- The values beside an execution are those that its definitions have, and what is known holds. A load that was taken
out has a stand-in with its value, wherever it may be read. -/
structure Agrees (g g' : FlowGraph) (f : Forwarding) (s : State Memory) (τ : Values) : Prop where
  kept : ∀ d, Evaluates g d → g.isPlaced d = false ∨ g'.isPlaced d = true → τ d = s.values d
  gone : ∀ d, Gone g g' d → τ (f.standIn d) = s.values d ∨ Missed g s.block s.rest d
  known : ∀ k w p, f.known s.block s.rest k w → f.place k = some p →
    (p.map f.standIn).contents τ s.memory = τ w

theorem Agrees.of_not_missed (h : Agrees g g' f s τ) (hd : Evaluates g d)
    (hmiss : Gone g g' d → ¬ Missed g s.block s.rest d) : τ (f.standIn d) = s.values d := by
  by_cases hplaced : g.isPlaced d = true ∧ g'.isPlaced d = false
  · obtain ⟨b, hb⟩ := Layout.isPlaced_iff.mp hplaced.1
    have hgone : Gone g g' d := ⟨⟨b, hg.located.mem_insts_iff.mpr hb⟩, hplaced.2⟩
    exact (h.gone d hgone).resolve_right (hmiss hgone)
  · have hstays : g.isPlaced d = false ∨ g'.isPlaced d = true := by
      cases h₁ : g.isPlaced d <;> cases h₂ : g'.isPlaced d <;> simp_all
    rw [hf.same d hd hstays]
    exact h.kept d hd hstays

theorem Agrees.inputs (h : Agrees g g' f s τ) (hw : Within g s) (hrest : s.rest = i :: rest)
    (hn : g.nodes[i.index]? = some n) : ∀ a ∈ n.inst.args, τ (f.standIn a) = s.values a := by
  obtain ⟨front, hfront⟩ := hw.rest
  rw [hrest] at hfront
  have hi : i ∈ g.insts s.block := by rw [hfront]; simp
  intro a ha
  refine h.of_not_missed hg hf (hg.evaluates_input hw.reachable (.inl hi) hn ha) ?_
  rintro hgone ⟨path, front', hpath, hhead, hfront', hmiss⟩
  rw [hrest] at hfront'
  obtain ⟨m, hm, hdefined⟩ := hg.reads.inputs path hpath (by rw [hhead]; exact hg.ne_graphEntry hi) front' i rest
    (by rw [hhead]; exact hfront')
  obtain rfl := Option.some_inj.mp (hn.symm.trans hm)
  obtain ⟨b, hb⟩ := hgone.placed
  exact (hdefined a ha).elim (hg.not_initial hb) hmiss

theorem Agrees.phi_inputs (h : Agrees g g' f s τ) (hw : Within g s) (hexits : Exits g s c μ)
    (hk : (predsOf g c)[k]? = some s.block) (hphi : LivePhi g c d) {a : InstId} (ha : inputOf g d k = some a) :
    τ (f.standIn a) = s.values a := by
  have hedge := hw.edge hg hexits
  have hc : g.Reachable c := hw.reachable.tail hedge
  obtain ⟨m, hm, harg⟩ := Option.bind_eq_some_iff.mp ha
  refine h.of_not_missed hg hf (hg.evaluates_input hc (.inr hphi) hm (List.mem_of_getElem? harg)) ?_
  rintro hgone ⟨path, front, hpath, hhead, hfront, hmiss⟩
  have hwhere := hg.evaluated_on_edge hpath (by rw [hhead]; exact hedge) hphi (by rw [hhead]; exact hk) ha
  obtain ⟨b, hb⟩ := hgone.placed
  refine hwhere.elim (hg.not_initial hb) fun hmem => ?_
  rw [hhead, hfront, ← List.append_assoc] at hmem
  exact (List.mem_append.mp hmem).elim hmiss (hgone.not_mem_rest hg hf hw hexits)

theorem known_step (hbeside : Beside g g' f ⟨b, i :: rest, σ, μ⟩ τ) (h : Agrees g g' f ⟨b, i :: rest, σ, μ⟩ τ)
    (hn : g.nodes[i.index]? = some n) (hargs : ∀ a ∈ n.inst.args, (σ a).isSome = true) {result : Option Value}
    (hdoes : memoryMeaning.does σ μ i n.inst result μ') {τ' : Values} (hothers : ∀ d, d ≠ i → τ' d = τ d)
    (hresult : n.inst.isDefinition = true → τ' (f.standIn i) = result) {k : Nat} {w : InstId} {p : Place}
    (hknown : f.known b rest k w) (hp : f.place k = some p) : (p.map f.standIn).contents τ' μ' = τ' w := by
  have hw := hbeside.within hg
  obtain ⟨hb, front, hfront⟩ := hw
  obtain ⟨hindependent, hreads⟩ := hbeside.independent hg hf hn hargs
  have hagree : ∀ a ∈ n.inst.args, τ' (f.standIn a) = σ a := fun a ha =>
    (hothers _ (hreads a ha)).trans (h.inputs hg hf (hbeside.within hg) rfl hn a ha)
  obtain ⟨hbefore, hleaves⟩ | ⟨p', q, v, hp', hstore, hsame, rfl⟩ | ⟨p', hp', hload, rfl⟩ :=
    hf.step b front i rest n k w hb hfront hn hknown
  · obtain ⟨hne, hoperands⟩ := hindependent k w p hbefore hp
    rw [Place.contents_map, contents_of_leaves (hleaves p hp) hdoes hargs, hothers w hne,
      ← h.known k w p hbefore hp, Place.contents_map]
    exact Place.contents_congr fun o ho => hothers _ (hoperands o ho)
  · obtain rfl := Option.some_inj.mp (hp.symm.trans hp')
    obtain ⟨hsub, hvalue⟩ := operands_subset_of_stores hstore
    rw [hsame, Place.contents_map, hagree v (hvalue v rfl), ← contents_of_stores hstore hdoes hargs]
    exact Place.contents_congr fun o ho => hagree o (hsub ho)
  · obtain rfl := Option.some_inj.mp (hp.symm.trans hp')
    rw [hresult (isDefinition_of_loads hload), result_of_loads hload hdoes hargs, Place.contents_map,
      memory_of_no_store (storedPlace?_of_loads hload) (hasSideEffect_of_loads hload) hdoes]
    exact Place.contents_congr fun o ho => hagree o (operands_subset_of_loads hload ho)

theorem Agrees.standIn_load (h : Agrees g g' f ⟨b, i :: rest, σ, μ⟩ τ) (hbeside : Beside g g' f ⟨b, i :: rest, σ, μ⟩ τ)
    (hn : g.nodes[i.index]? = some n) (hgone : g'.isPlaced i = false) :
    ∃ p, loadedPlace? n.inst = some p ∧ τ (f.standIn i) = p.contents σ μ := by
  obtain ⟨hb, front, hfront⟩ := hbeside.within hg
  obtain ⟨k, p, hload, hp, hknown⟩ := hf.removed b front i rest n hb hfront hn hgone
  refine ⟨p, hload, ?_⟩
  rw [← h.known k _ p hknown hp, Place.contents_map]
  exact Place.contents_congr fun o ho =>
    h.inputs hg hf (hbeside.within hg) rfl hn o (operands_subset_of_loads hload ho)

theorem Beside.agrees (h : Beside g g' f s τ) : Agrees g g' f s τ := by
  induction h with
  | @start s hs =>
    refine ⟨fun d _ _ => rfl, fun d hgone => .inr ?_, fun k w p hknown _ => ?_⟩
    · refine ⟨[], [], .nil, hs.block.symm, ?_, List.not_mem_nil⟩
      rw [hs.block, hs.rest, hg.entry]
      rfl
    · rw [hs.block, hs.rest] at hknown
      exact absurd hknown (hf.start k w)
  | @define b i rest σ τ μ μ' n v h hn hdef hargs hdoes ih =>
    obtain ⟨hb, front, hfront⟩ := h.within hg
    have hi : i ∈ g.insts b := by rw [hfront]; simp
    have hothers : ∀ d, d ≠ i → (if g'.isPlaced i then Function.update τ i (some v) else τ) d = τ d := by
      intro d hne
      split <;> simp [hne]
    have hresult : (if g'.isPlaced i then Function.update τ i (some v) else τ) (f.standIn i) = some v := by
      split
      case isTrue hplaced => simp [hf.same i (.inr (.inl ⟨b, hi⟩)) (.inr hplaced)]
      case isFalse hplaced =>
        obtain ⟨p, hload, heq⟩ := ih.standIn_load hg hf h hn (by simpa using hplaced)
        rw [heq, ← result_of_loads hload hdoes hargs]
    refine ⟨fun d hd hstays => ?_, fun d hgone => ?_, fun k w p => known_step hg hf h ih hn hargs hdoes hothers
      fun _ => hresult⟩
    · by_cases heq : d = i
      · subst heq
        obtain hno | hplaced := hstays
        · rw [hg.isPlaced_of_mem hi] at hno
          cases hno
        · simp [hplaced]
      · rw [hothers d heq, ih.kept d hd hstays]
        simp [heq]
    · by_cases heq : d = i
      · subst heq
        exact .inl (by simpa using hresult)
      · obtain hagree | hmiss := ih.gone d hgone
        · by_cases hstand : f.standIn d = i
          · -- What stands in for the load changes. A path that came here for the first time missed the load.
            obtain ⟨s₀, τ₀, h₀, rfl, hrest, -, hnone⟩ := h.first hg hf hn hargs
            have hmiss := (h₀.missed hg hf hgone).resolve_left (by rw [hstand, hnone]; exact Bool.false_ne_true)
            rw [hrest] at hmiss
            exact .inr (hmiss.next heq)
          · rw [hothers _ hstand, hagree]
            exact .inl (by simp [heq])
        · exact .inr (hmiss.next heq)
  | @pass b i rest σ τ μ μ' n h hn hdef hterm hargs hdoes ih =>
    refine ⟨ih.kept, fun d hgone => (ih.gone d hgone).imp_right fun hmiss => hmiss.next ?_, fun k w p =>
      known_step hg hf h ih hn hargs hdoes (fun _ _ => rfl) fun hdef' => ?_⟩
    · rw [hdef] at hdef'
      cases hdef'
    · rintro rfl
      obtain ⟨m, p, hm, hload⟩ := hgone.exists_load hg hf
      obtain rfl := Option.some_inj.mp (hn.symm.trans hm)
      rw [isDefinition_of_loads hload] at hdef
      cases hdef
  | @cross s c k σ τ μ h hexits hk hcross ih =>
    have hw := h.within hg
    have hc : g.Reachable c := hw.reachable.tail (hw.edge hg hexits)
    refine ⟨fun d hd hstays => ?_, fun d hgone => ?_, fun m w p hknown hp => ?_⟩
    · by_cases hphi : LivePhi g c d
      · obtain ⟨a, v, ha, hv, hσ⟩ := (hcross d).1 hphi
        rw [enter_phi hphi, ha, Option.bind_some, ih.phi_inputs hg hf hw hexits hk hphi ha, hv, ← hσ]
      · rw [enter_other hphi (not_merges_of_lt hf (hg.lt_size_of_evaluates hd)), ih.kept d hd hstays]
        exact ((hcross d).2 hphi).symm
    · have hσ : σ d = s.values d := by
        obtain ⟨b, hb⟩ := hgone.placed
        exact (hcross d).2 fun hphi => hg.not_placed_of_livePhi hphi hb
      obtain hagree | hmiss := ih.gone d hgone
      · by_cases htakes : Takes g f c (f.standIn d)
        · obtain ⟨s₀, τ₀, j, μ₀, h₀, hexits₀, -, hnone⟩ := h.first_cross hg hf hexits hk htakes
          have hmiss := (h₀.missed hg hf hgone).resolve_left (by rw [hnone]; exact Bool.false_ne_true)
          exact .inr (hmiss.cross hg hf hgone (h₀.within hg) hexits₀)
        · exact .inl (by rw [enter_of_not_takes htakes, hagree]; exact hσ.symm)
      · exact .inr (hmiss.cross hg hf hgone hw hexits)
    · -- The operands of the place are no phis of the block, since they had values when it was first entered.
      have hoperands {u : InstId} (hu : f.known s.block [] m u)
          (hall : ∀ (j : Nat) b, g.Reachable b → (predsOf g c)[j]? = some b → ∃ u, f.known b [] m u) :
          (p.map f.standIn).contents (enter g f c k τ) μ = τ u := by
        obtain ⟨hbefore, hcontents⟩ := known_exit (p := p) hg hf hw hexits hu
        rw [← ih.known m u p hbefore hp, Place.contents_map, Place.contents_map, hcontents _ hp]
        refine Place.contents_congr fun o ho => enter_of_not_takes fun htakes => ?_
        obtain ⟨j, b, hb, hj, hindependent⟩ := h.independent_cross hg hf hexits hk htakes
        obtain ⟨u', hu'⟩ := hall j b hb hj
        exact (hindependent m u' p hu' hp).2 o ho rfl
      obtain hall | ⟨hmerges, hcollects⟩ := hf.edge c m w hc hknown
      · rw [hoperands (hall k s.block hw.reachable hk) fun j b hb hj => ⟨w, hall j b hb hj⟩]
        refine (enter_of_not_takes fun htakes => ?_).symm
        obtain ⟨j, b, hb, hj, hindependent⟩ := h.independent_cross hg hf hexits hk htakes
        exact (hindependent m w p (hall j b hb hj) hp).1 rfl
      · obtain ⟨u, hu, hknown⟩ := hcollects k s.block hw.reachable hk
        rw [hoperands hknown fun j b hb hj => (hcollects j b hb hj).imp fun _ h => h.2]
        have hphi : ¬ LivePhi g c w := fun h =>
          not_merges_of_lt hf (hg.lt_size_of_evaluates (.inr (.inr ⟨c, h⟩))) hmerges
        rw [enter_merges hphi hmerges, hu, Option.bind_some]

/-! ## The execution of the other graph -/

/-- The values without those of phis that were left out. -/
noncomputable def visible (g' : FlowGraph) (f : Forwarding) (τ : Values) : Values := by
  classical exact fun d => if Dropped g' f d then none else τ d

omit hg hf in
theorem visible_eq {τ : Values} (h : ¬ Dropped g' f d) : visible g' f τ d = τ d := if_neg h

omit hg in
theorem not_dropped_of_lt (hd : d.index < g.nodes.size) : ¬ Dropped g' f d := fun ⟨_, hmerges, _⟩ =>
  not_merges_of_lt hf hd hmerges

theorem visible_update (hi : i ∈ g.insts b) (v : Option Value) :
    Function.update (visible g' f τ) i v = visible g' f (Function.update τ i v) := by
  funext d
  by_cases heq : d = i
  · subst heq
    rw [Function.update_self, visible_eq (not_dropped_of_lt hf (hg.lt_size hi)), Function.update_self]
  · rw [Function.update_of_ne heq]
    by_cases hd : Dropped g' f d
    · simp [visible, hd]
    · rw [visible_eq hd, visible_eq hd, Function.update_of_ne heq]

noncomputable def image (g' : FlowGraph) (f : Forwarding) (s : State Memory) (τ : Values) : State Memory :=
  ⟨s.block, s.rest.filter (g'.isPlaced ·), visible g' f τ, s.memory⟩

omit hg in
theorem mem_insts_of_placed (hb : g.Reachable b) (hi : i ∈ g.insts b) (hplaced : g'.isPlaced i = true) :
    i ∈ g'.insts b := by
  rw [hf.insts b hb]
  exact List.mem_filter.mpr ⟨hi, hplaced⟩

theorem does_image (hbeside : Beside g g' f ⟨b, i :: rest, σ, μ⟩ τ) (hn : g.nodes[i.index]? = some n)
    (hargs : ∀ a ∈ n.inst.args, (σ a).isSome = true) (hplaced : g'.isPlaced i = true) {result : Option Value}
    (hdoes : memoryMeaning.does σ μ i n.inst result μ') :
    ∃ n', g'.nodes[i.index]? = some n' ∧ n'.inst = n.inst.mapArgs (fun _ => f.standIn) ∧
      (∀ a ∈ n'.inst.args, (visible g' f τ a).isSome = true) ∧
      memoryMeaning.does (visible g' f τ) μ i n'.inst result μ' := by
  obtain ⟨hb, front, hfront⟩ := hbeside.within hg
  have hi : i ∈ g'.insts b := mem_insts_of_placed hf hb (by rw [hfront]; simp) hplaced
  obtain ⟨n', hn', hinst⟩ := hf.kept b i n hb (.inl hi) hn
  have hagree : ∀ a ∈ n.inst.args, visible g' f τ (f.standIn a) = σ a := by
    intro a ha
    rw [visible_eq, (hbeside.agrees hg hf).inputs hg hf (hbeside.within hg) rfl hn a ha]
    refine hf.reads b i n' _ hb (.inl hi) hn' ?_
    rw [hinst, Inst.args_mapArgs]
    obtain ⟨k, hk⟩ := List.mem_iff_getElem?.mp ha
    exact List.mem_iff_getElem?.mpr ⟨k, by simp [hk]⟩
  refine ⟨n', hn', hinst, fun a ha => ?_, hinst ▸ does_mapArgs hagree hdoes⟩
  rw [hinst, Inst.args_mapArgs] at ha
  obtain ⟨k, hk⟩ := List.mem_iff_getElem?.mp ha
  rw [List.getElem?_mapIdx] at hk
  obtain ⟨a', ha', rfl⟩ := Option.map_eq_some_iff.mp hk
  have hmem := List.mem_of_getElem? ha'
  rw [hagree a' hmem]
  exact hargs a' hmem

theorem crosses_image (hbeside : Beside g g' f s τ) (hexits : Exits g s c μ) (hk : (predsOf g c)[k]? = some s.block)
    (hcross : ∀ d, (LivePhi g c d → ∃ a v, inputOf g d k = some a ∧ s.values a = some v ∧ σ d = some v) ∧
      (¬ LivePhi g c d → σ d = s.values d)) :
    Crosses g' s.block c (visible g' f τ) (visible g' f (enter g f c k τ)) := by
  have hw := hbeside.within hg
  have hc : g.Reachable c := hw.reachable.tail (hw.edge hg hexits)
  refine ⟨k, by rw [hf.preds]; exact hk, fun d => ⟨fun hlive => ?_, fun hnot => ?_⟩⟩
  · have hkept : ¬ Dropped g' f d := by
      rintro ⟨c', hmerges, hdead⟩
      obtain hold | hnew := hf.newPhis c d hc hlive
      · exact not_merges_of_lt hf (hg.lt_size_of_evaluates (.inr (.inr ⟨c, hold⟩))) hmerges
      · exact hdead (hf.unique c c' d hnew hmerges ▸ hlive)
    obtain ⟨m, hm, -⟩ := Definite.exists_alive hlive
    have hread {a : InstId} (ha : inputOf g' d k = some a) : ¬ Dropped g' f a := by
      obtain ⟨m', hm', harg⟩ := Option.bind_eq_some_iff.mp ha
      exact hf.reads c d m' a hc (.inr hlive) hm' (List.mem_of_getElem? harg)
    by_cases hold : LivePhi g c d
    · obtain ⟨a, v, ha, hv, -⟩ := (hcross d).1 hold
      obtain ⟨n, hn, harg⟩ := Option.bind_eq_some_iff.mp ha
      obtain ⟨n', hn', hinst⟩ := hf.kept c d n hc (.inr hold) hn
      have hinput : inputOf g' d k = some (f.standIn a) := by simp [inputOf, hn', hinst, harg]
      have hvalue : τ (f.standIn a) = some v :=
        ((hbeside.agrees hg hf).phi_inputs hg hf hw hexits hk hold ha).trans hv
      refine ⟨_, v, hinput, by rw [visible_eq (hread hinput), hvalue], ?_⟩
      rw [visible_eq hkept, enter_phi hold, ha, Option.bind_some, hvalue]
    · have hmerges := (hf.newPhis c d hc hlive).resolve_left hold
      obtain ⟨v, hv⟩ := Option.isSome_iff_exists.mp
        (isSome_enter hg hf hw hexits hk (hbeside.ready hg hf).1 hmerges hold)
      rw [visible_eq hkept, hv]
      rw [enter_merges hold hmerges] at hv
      obtain ⟨a, ha, hav⟩ := Option.bind_eq_some_iff.mp hv
      have hinput : inputOf g' d k = some a := (hf.inputs c d k hmerges hlive).trans ha
      exact ⟨a, v, hinput, by rw [visible_eq (hread hinput), hav], rfl⟩
  · by_cases hdropped : Dropped g' f d
    · simp [visible, hdropped]
    · rw [visible_eq hdropped, visible_eq hdropped, enter_of_not_takes]
      rintro (hold | hmerges)
      · exact hnot (hf.phis c d hc hold)
      · exact hdropped ⟨c, hmerges, hnot⟩

/-- Beside every execution runs one of the graph without the loads. -/
theorem Beside.reaches (h : Beside g g' f s τ) : Reaches g' memoryMeaning (image g' f s τ) := by
  induction h with
  | @start s hs =>
    refine ⟨image g' f s s.values, ⟨hs.block, by simp [image, hs.rest], fun d hd => ?_, fun d hd => ?_⟩, .refl⟩
    · rw [hf.initial] at hd
      obtain ⟨n, v, hn, hv, hconstant⟩ := hs.initial d hd
      obtain ⟨n', m, hn', hinst⟩ := hf.shapes d n hn
      refine ⟨n', v, hn', ?_, fun c hc => hconstant c ?_⟩
      · exact (visible_eq (not_dropped_of_lt hf (hg.lt_size_of_evaluates (.inl hd)))).trans hv
      · rw [hinst] at hc
        cases hd : n.inst <;> simp_all [Inst.mapArgs]
    · rw [hf.initial] at hd
      have hnone := hs.others d hd
      by_cases hdropped : Dropped g' f d
      · simp [image, visible, hdropped]
      · exact (visible_eq hdropped).trans hnone
  | @define b i rest σ τ μ μ' n v h hn hdef hargs hdoes ih =>
    obtain ⟨hb, front, hfront⟩ := h.within hg
    have hi : i ∈ g.insts b := by rw [hfront]; simp
    by_cases hplaced : g'.isPlaced i = true
    · obtain ⟨n', hn', hinst, hargs', hdoes'⟩ := does_image hg hf h hn hargs hplaced hdoes
      obtain ⟨s₀, hs₀, hsteps⟩ := ih
      refine ⟨s₀, hs₀, hsteps.tail ?_⟩
      have hstep : Step g' memoryMeaning ⟨b, i :: rest.filter (g'.isPlaced ·), visible g' f τ, μ⟩
          ⟨b, rest.filter (g'.isPlaced ·), Function.update (visible g' f τ) i (some v), μ'⟩ :=
        .define hn' (by rw [hinst, Inst.isDefinition_mapArgs, hdef]) hargs' hdoes'
      rw [visible_update hg hf hi] at hstep
      simpa [image, hplaced] using hstep
    · obtain ⟨k, p, hload, -⟩ := hf.removed b front i rest n hb hfront hn (by simpa using hplaced)
      have hmemory : μ' = μ :=
        memory_of_no_store (storedPlace?_of_loads hload) (hasSideEffect_of_loads hload) hdoes
      simpa [image, hplaced, hmemory] using ih
  | @pass b i rest σ τ μ μ' n h hn hdef hterm hargs hdoes ih =>
    obtain ⟨hb, front, hfront⟩ := h.within hg
    have hplaced : g'.isPlaced i = true := by
      rw [← Bool.not_eq_false]
      intro hgone
      obtain ⟨k, p, hload, -⟩ := hf.removed b front i rest n hb hfront hn hgone
      rw [isDefinition_of_loads hload] at hdef
      cases hdef
    obtain ⟨n', hn', hinst, hargs', hdoes'⟩ := does_image hg hf h hn hargs hplaced hdoes
    obtain ⟨s₀, hs₀, hsteps⟩ := ih
    refine ⟨s₀, hs₀, hsteps.tail ?_⟩
    have hstep : Step g' memoryMeaning ⟨b, i :: rest.filter (g'.isPlaced ·), visible g' f τ, μ⟩
        ⟨b, rest.filter (g'.isPlaced ·), visible g' f τ, μ'⟩ :=
      .pass hn' (by rw [hinst, Inst.isDefinition_mapArgs, hdef]) (by rw [hinst, Inst.isTerminator_mapArgs, hterm])
      hargs'
        hdoes'
    simpa [image, hplaced] using hstep
  | @cross s c k σ τ μ h hexits hk hcross ih =>
    obtain ⟨s₀, hs₀, hsteps⟩ := ih
    have hc : g.Reachable c := (h.within hg).reachable.tail ((h.within hg).edge hg hexits)
    have hcross' := crosses_image hg hf h hexits hk hcross
    refine ⟨s₀, hs₀, hsteps.tail ?_⟩
    unfold image
    dsimp only
    rw [← hf.insts c hc]
    cases hexits with
    | @begin _ σ₀ _ hedge =>
      refine .begin ?_ hcross'
      unfold FlowGraph.Edge
      rw [hf.entries]
      exact hedge
    | @jump b _ i rest σ₀ μ₀ _ n hn hterm hsucc hargs hdoes =>
      obtain ⟨hb, front, hfront⟩ := h.within hg
      have hplaced : g'.isPlaced i = true := by
        rw [← Bool.not_eq_false]
        intro hgone
        obtain ⟨k, p, hload, -⟩ := hf.removed b front i rest n hb hfront hn hgone
        rw [not_isTerminator_of_loads hload] at hterm
        cases hterm
      obtain ⟨n', hn', hinst, hargs', hdoes'⟩ := does_image hg hf h hn hargs hplaced hdoes
      rw [List.filter_cons_of_pos hplaced]
      exact .jump hn' (by rw [hinst, Inst.isTerminator_mapArgs, hterm])
        (by rw [hinst, Inst.successors_mapArgs]; exact hsucc) hargs' hdoes' trivial hcross'

end

end Forwarding

end Midend.Loads
