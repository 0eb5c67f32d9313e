import Midend.Proofs.Ssa.Progress

/-! # Which phis stay

Life spreads from the phis that loads read to all phis that these read in turn.
-/

namespace Midend.Ssa

/-- The graph with the phis of `L` brought to life. -/
def revived (g : FlowGraph) (L : List InstId) : FlowGraph :=
  g.mapNodes fun i n => if i ∈ L then { n with inst := n.inst.revive } else n

variable {g : FlowGraph} {L waiting live pushed : List InstId} {i d : InstId} {n : Node}

theorem nodes_revived (g : FlowGraph) (L : List InstId) (i : InstId) : (revived g L).nodes[i.index]? =
    (g.nodes[i.index]?).map fun n => if i ∈ L then { n with inst := n.inst.revive } else n :=
  FlowGraph.nodes_mapNodes i

theorem withNode_revived (g : FlowGraph) (L : List InstId) (d : InstId) :
    ((revived g L).withNode d fun n => { n with inst := n.inst.revive }) = revived g (d :: L) := by
  unfold revived FlowGraph.withNode
  rw [FlowGraph.mapNodes_mapNodes]
  refine FlowGraph.mapNodes_congr fun i n _ => ?_
  by_cases hi : i = d
  · subst hi
    by_cases hL : i ∈ L <;> simp [hL]
  · simp [hi]

def isPhiIn (g : FlowGraph) (i : InstId) : Bool := ((g.nodes[i.index]?).map fun n => n.inst.isPhi).getD false

theorem aliveIn_revived (g : FlowGraph) (L : List InstId) (i : InstId) :
    aliveIn (revived g L) i = (aliveIn g i || (decide (i ∈ L) && isPhiIn g i)) := by
  unfold aliveIn isPhiIn
  rw [nodes_revived]
  cases g.nodes[i.index]? with
  | none => simp
  | some n =>
    by_cases hi : i ∈ L
    · simp only [Option.map_some, if_pos hi, Option.getD_some, Inst.isAlivePhi_revive, decide_eq_true hi, Bool.true_and]
      cases ha : n.inst.isAlivePhi with
      | true => rw [Inst.isPhi_of_isAlivePhi ha, Bool.true_or]
      | false => rw [Bool.false_or]
    · simp [hi]

/-- What life spreads over: instructions with the opcode of a phi are phis, and phis have inputs. -/
structure Spreads (g : FlowGraph) : Prop where
  opcode : ∀ (i : InstId) (n : Node), g.nodes[i.index]? = some n → n.inst.opcode = .phi → n.inst.isPhi = true
  inputs : ∀ (i : InstId) (n : Node), g.nodes[i.index]? = some n → n.inst.isPhi = true →
    ∀ d ∈ n.inst.args, d.index < g.nodes.size

/-- The phis of `pushed` came to life after those of `live`, and `current` is being looked at. -/
structure Spreading (g : FlowGraph) (live pushed waiting : List InstId) (current : Option InstId) : Prop where
  first : ∀ i, i ∈ live ↔ aliveIn g i = true
  phis : ∀ i ∈ pushed, isPhiIn g i = true
  nodup : pushed.Nodup
  seen : ∀ i ∈ waiting, i ∈ pushed ++ live
  looked : ∀ i ∈ pushed ++ live, i ∈ waiting ∨ some i = current ∨ ∀ (n : Node), g.nodes[i.index]? = some n →
    ∀ d ∈ n.inst.args, isPhiIn g d = true → d ∈ pushed ++ live

theorem isPhiIn_iff : isPhiIn g i = true ↔ ∃ n, g.nodes[i.index]? = some n ∧ n.inst.isPhi = true := by
  unfold isPhiIn
  cases g.nodes[i.index]? <;> simp

theorem Spreading.mem_iff {current : Option InstId} (h : Spreading g live pushed waiting current) :
    i ∈ pushed ++ live ↔ aliveIn (revived g (pushed ++ live)) i = true := by
  rw [aliveIn_revived, Bool.or_eq_true, Bool.and_eq_true, decide_eq_true_iff, ← h.first]
  constructor
  · intro hi
    obtain hi' | hi' := List.mem_append.mp hi
    · exact .inr ⟨hi, h.phis i hi'⟩
    · exact .inl hi'
  · rintro (hi | ⟨hi, -⟩)
    · exact List.mem_append_right _ hi
    · exact hi

theorem Spreading.length_le {current : Option InstId} (h : Spreading g live pushed waiting current) :
    pushed.length ≤ g.nodes.size := by
  have hnodup : (pushed.map InstId.index).Nodup := h.nodup.map fun _ _ heq => InstId.index_inj.mp heq
  have hsub : pushed.map InstId.index ⊆ List.range g.nodes.size := by
    intro k hk
    obtain ⟨i, hi, rfl⟩ := List.mem_map.mp hk
    obtain ⟨n, hn, -⟩ := isPhiIn_iff.mp (h.phis i hi)
    exact List.mem_range.mpr (Array.getElem?_eq_some_iff.mp hn).1
  simpa using (List.subperm_of_subset hnodup hsub).length_le

theorem leads_reviveInput (hg : Spreads g) {current : Option InstId} (h : Spreading g live pushed waiting current)
    (hd : d.index < g.nodes.size) :
    Leads False (revived g (pushed ++ live)) (reviveInput ⟨waiting, pushed ++ live⟩ d) fun s g' =>
      ∃ pushed', s.seen = pushed' ++ live ∧ g' = revived g (pushed' ++ live) ∧
        Spreading g live pushed' s.waiting current ∧ (∀ i ∈ pushed ++ live, i ∈ pushed' ++ live) ∧
        (isPhiIn g d = true → d ∈ pushed' ++ live) ∧
        s.waiting.length + pushed.length = waiting.length + pushed'.length := by
  obtain ⟨n, hn⟩ : ∃ n, g.nodes[d.index]? = some n := ⟨_, Array.getElem?_eq_getElem hd⟩
  obtain ⟨m, hm, hop, hphi⟩ : ∃ m, (revived g (pushed ++ live)).nodes[d.index]? = some m ∧
      m.inst.opcode = n.inst.opcode ∧ m.inst.isPhi = n.inst.isPhi := by
    refine ⟨_, by rw [nodes_revived, hn]; rfl, ?_, ?_⟩ <;> split <;> simp
  have hopcode : (revived g (pushed ++ live)).opcode d = .ok n.inst.opcode :=
    FlowGraph.opcode_eq_ok.mpr ⟨m, hm, hop⟩
  have halive : (revived g (pushed ++ live)).isAlivePhi d = .ok (aliveIn (revived g (pushed ++ live)) d) :=
    FlowGraph.isAlivePhi_eq_ok.mpr ⟨m, hm, (aliveIn_eq hm).symm⟩
  have hisPhi : isPhiIn g d = n.inst.isPhi := by simp [isPhiIn, hn]
  have hlt : d.index < (revived g (pushed ++ live)).nodes.size := by simpa [revived] using hd
  unfold reviveInput
  simp only [Leads.bind_iff, Leads.get_iff, Leads.lift_iff, hopcode, halive, Yields.ok_iff]
  split
  case isTrue hdead =>
    obtain ⟨⟨hphi', hdead⟩, hnew⟩ : (n.inst.opcode = .phi ∧ aliveIn (revived g (pushed ++ live)) d = false) ∧
        d ∉ pushed ++ live := by simpa using hdead
    have hisPhi' : isPhiIn g d = true := hisPhi.trans (hg.opcode d n hn hphi')
    simp only [Leads.bind_iff, Edit.revivePhi, Leads.modifyNode_iff, Leads.pure_iff]
    refine ⟨fun _ => ⟨d :: pushed, rfl, withNode_revived g _ d, ?_, ?_, fun _ => List.mem_cons_self, ?_⟩,
      fun hle => absurd hlt (Nat.not_lt.mpr hle)⟩
    · refine ⟨h.first, List.forall_mem_cons.mpr ⟨hisPhi', h.phis⟩,
        List.nodup_cons.mpr ⟨fun hmem => hnew (List.mem_append_left _ hmem), h.nodup⟩, ?_, ?_⟩
      · exact List.forall_mem_cons.mpr ⟨List.mem_cons_self, fun i hi => List.mem_cons_of_mem d (h.seen i hi)⟩
      · intro i hi
        obtain rfl | hi := List.mem_cons.mp hi
        · exact .inl List.mem_cons_self
        · obtain hw | hw | hw := h.looked i hi
          · exact .inl (List.mem_cons_of_mem d hw)
          · exact .inr (.inl hw)
          · exact .inr (.inr fun n hn e he hphi => List.mem_cons_of_mem d (hw n hn e he hphi))
    · exact fun i hi => List.mem_cons_of_mem d hi
    · simp only [List.length_cons]
      omega
  case isFalse hdead =>
    rw [Leads.pure_iff]
    refine ⟨pushed, rfl, rfl, h, fun _ hi => hi, fun hd => ?_, rfl⟩
    by_contra hnew
    have hdead' : aliveIn (revived g (pushed ++ live)) d = false := by
      rw [← Bool.not_eq_true, ← h.mem_iff]
      exact hnew
    refine hdead ?_
    have hphi' : n.inst.opcode = .phi := Inst.opcode_of_isPhi (hisPhi.symm.trans hd)
    simp only [hphi', hdead', hnew, beq_self_eq_true, Bool.not_false, Bool.and_true, not_false_iff, decide_true]

theorem leads_spreadLife (hg : Spreads g) {steps : Nat} (h : Spreading g live pushed waiting none)
    (hsteps : waiting.length + (g.nodes.size - pushed.length) ≤ steps) :
    Leads False (revived g (pushed ++ live)) (spreadLife steps ⟨waiting, pushed ++ live⟩) fun _ g' =>
      ∃ pushed', g' = revived g (pushed' ++ live) ∧ Spreading g live pushed' [] none := by
  induction steps generalizing pushed waiting with
  | zero =>
    obtain rfl : waiting = [] := List.eq_nil_of_length_eq_zero (by omega)
    unfold spreadLife
    exact ⟨pushed, rfl, h⟩
  | succ steps ih =>
    cases waiting with
    | nil =>
      unfold spreadLife
      exact ⟨pushed, rfl, h⟩
    | cons phi waiting =>
      have hmem := h.seen phi List.mem_cons_self
      obtain ⟨n, hn, hphi⟩ : ∃ n, g.nodes[phi.index]? = some n ∧ n.inst.isPhi = true := by
        obtain hmem | hmem := List.mem_append.mp hmem
        · exact isPhiIn_iff.mp (h.phis phi hmem)
        · obtain ⟨n, hn, ha⟩ := aliveIn_iff.mp ((h.first phi).mp hmem)
          exact ⟨n, hn, Inst.isPhi_of_isAlivePhi ha⟩
      have hargs : (revived g (pushed ++ live)).args phi = .ok n.inst.args := by
        refine FlowGraph.args_eq_ok.mpr ⟨_, by rw [nodes_revived, hn]; rfl, ?_⟩
        split <;> simp
      have hpop : Spreading g live pushed waiting (some phi) := by
        refine ⟨h.first, h.phis, h.nodup, fun i hi => h.seen i (List.mem_cons_of_mem phi hi), fun i hi => ?_⟩
        obtain hw | hw | hw := h.looked i hi
        · obtain rfl | hw := List.mem_cons.mp hw
          · exact .inr (.inl rfl)
          · exact .inl hw
        · cases hw
        · exact .inr (.inr hw)
      unfold spreadLife
      rw [Leads.bind_iff, Leads.get_iff, Leads.bind_iff, Leads.lift_iff, hargs, Yields.ok_iff, Leads.bind_iff]
      refine (Leads.foldlM (fun done s g' => ∃ pushed', s.seen = pushed' ++ live ∧ g' = revived g (pushed' ++ live) ∧
        Spreading g live pushed' s.waiting (some phi) ∧ (∀ d ∈ done, isPhiIn g d = true → d ∈ pushed' ++ live) ∧
        s.waiting.length + pushed.length = waiting.length + pushed'.length)
        ⟨pushed, rfl, rfl, hpop, by simp, rfl⟩ ?_).mono ?_
      · rintro done d rest ⟨waiting₁, _⟩ _ hsplit ⟨pushed₁, rfl, rfl, h₁, hdone, hlen⟩
        have hd : d.index < g.nodes.size := hg.inputs phi n hn hphi d (by simp [hsplit])
        refine (leads_reviveInput hg h₁ hd).mono ?_
        rintro s _ ⟨pushed₂, hseen, rfl, h₂, hsub, hd₂, hlen₂⟩
        have hlen : waiting₁.length + pushed.length = waiting.length + pushed₁.length := hlen
        refine ⟨pushed₂, hseen, rfl, h₂, fun e he hphi => ?_, by omega⟩
        obtain he | he := List.mem_append.mp he
        · exact hsub e (hdone e he hphi)
        · rw [List.mem_singleton.mp he] at hphi ⊢
          exact hd₂ hphi
      · rintro ⟨waiting₁, _⟩ _ ⟨pushed₁, rfl, rfl, h₁, hdone, hlen⟩
        have hlooked : Spreading g live pushed₁ waiting₁ none := by
          refine ⟨h₁.first, h₁.phis, h₁.nodup, h₁.seen, fun i hi => ?_⟩
          obtain hw | hw | hw := h₁.looked i hi
          · exact .inl hw
          · obtain rfl := Option.some_inj.mp hw
            refine .inr (.inr fun m hm => ?_)
            obtain rfl : n = m := by simpa [hn] using hm
            exact hdone
          · exact .inr (.inr hw)
        have hle := h.length_le
        have hle₁ := h₁.length_le
        simp only [List.length_cons] at hsteps hlen
        exact ih hlooked (by omega)

/-- The phis in `L` are the live ones, and what they read is live as well. -/
structure Alive (g : FlowGraph) (L : List InstId) (g' : FlowGraph) : Prop where
  graph : g' = revived g L
  mem_iff : ∀ i, i ∈ L ↔ aliveIn g' i = true
  closed : ∀ i ∈ L, ∀ (n : Node), g.nodes[i.index]? = some n → ∀ d ∈ n.inst.args, isPhiIn g d = true → d ∈ L

/-- All phis that a live one reads come to life. -/
theorem leads_markLivePhis (hg : Spreads g) (hlive : ∀ i, i ∈ live ↔ aliveIn g i = true) :
    Leads False g (markLivePhis live) fun _ g' => ∃ L, Alive g L g' := by
  have hsame : revived g ([] ++ live) = g := by
    refine (FlowGraph.mapNodes_congr fun i n hn => ?_).trans FlowGraph.mapNodes_id
    split
    case isTrue hi =>
      obtain ⟨m, hm, ha⟩ := aliveIn_iff.mp ((hlive i).mp hi)
      obtain rfl : n = m := by simpa [hn] using hm
      obtain ⟨slot, as, rep, hinst⟩ := Inst.eq_phi_of_isAlivePhi ha
      cases n
      simp only at hinst
      subst hinst
      rfl
    case isFalse => rfl
  have hstart : Spreading g live [] live none :=
    ⟨hlive, by simp, List.nodup_nil, fun i hi => hi, fun i hi => .inl hi⟩
  unfold markLivePhis
  rw [Leads.bind_iff, Leads.get_iff]
  have hrun := leads_spreadLife hg hstart (Nat.le_refl _)
  rw [hsame, List.length_nil, Nat.sub_zero] at hrun
  refine hrun.mono ?_
  rintro _ _ ⟨pushed, rfl, h⟩
  refine ⟨pushed ++ live, rfl, fun i => h.mem_iff, fun i hi n hn d hd hphi => ?_⟩
  obtain hw | hw | hw := h.looked i hi
  · cases hw
  · cases hw
  · exact hw n hn d hd hphi

end Midend.Ssa
