import Midend.Proofs.Calls.Pushes
import Midend.Proofs.Ssa.Mismatches
import Midend.Proofs.Ssa.Reads

/-! # Call arguments in stack order

A push right behind the value that it takes leaves the stack in order whatever is evaluated in between. A push at the
end of the block takes the value on top, so that it only fits a call without other arguments. A call with several
arguments, one of which was evaluated in an earlier block, is given up.
-/

namespace Midend

open Midend.Flow

variable {r g g' : FlowGraph} {b b' c : BlockId} {v p q x call : InstId}
    {is start stack below above base vs ps : List InstId}

/-! ## The stack with pushes -/

namespace FlowGraph

theorem map_eq_self {f : InstId → InstId} (hf : ∀ a, a ≠ v → f a = a) {l : List InstId} (hl : l.count v = 0) :
    l.map f = l := by
  rw [List.count_eq_zero] at hl
  exact (List.map_congr_left (g := id) fun a ha => hf a fun heq => hl (heq ▸ ha)).trans l.map_id

theorem Executes.map {stack' : List InstId} (h : r.Executes is stack stack') (hv : v ∉ is)
    (hcount : stack.count v ≤ stack'.count v) {f : InstId → InstId} (hf : ∀ a, a ≠ v → f a = a) :
    r.Executes is (stack.map f) (stack'.map f) := by
  induction h with
  | nil => exact .nil _
  | @cons i is _ _ stack'' hmove hrest ih =>
    obtain ⟨n, base, hn, rfl, rfl⟩ := hmove
    rw [List.mem_cons, not_or] at hv
    -- Whatever the instruction pops, it is not the value.
    have hleft : (if n.leavesValue then [i] else []).count v = 0 := by
      split
      · rw [List.count_eq_zero, List.mem_singleton]
        exact hv.1
      · rfl
    have hlater := hrest.count_le v
    rw [List.count_eq_zero.mpr hv.2] at hlater
    simp only [List.count_append, hleft] at hcount hlater
    have hmid := ih hv.2 (by rw [List.count_append, hleft]; omega)
    refine .cons ⟨n, base.map f, hn, ?_, ?_⟩ hmid
    · rw [List.map_append, List.map_append, map_eq_self hf (l := n.inst.arguments) (by omega),
        map_eq_self hf (l := n.inst.args) (by omega)]
    · rw [List.map_append, map_eq_self hf hleft]

theorem moves_push (hp : r.inst p = .ok (.pushArgument v)) : r.Moves p (below ++ [v]) (below ++ [p]) := by
  obtain ⟨n, hn, hinst⟩ := inst_eq_ok.mp hp
  refine ⟨n, below, hn, ?_, ?_⟩
  · rw [hinst]
    simp [Inst.arguments, Inst.args]
  · simp [Node.leavesValue, hinst, Inst.opcode]

theorem Executes.push (h : r.Executes is start (below ++ v :: above)) (hstart : v ∉ start) (his : is.Nodup)
    (hv : v ∈ is) (hp : r.inst p = .ok (.pushArgument v)) :
    r.Executes (Layout.putAfter v p is) start (below ++ p :: above) := by
  have honce : (below ++ v :: above).count v ≤ 1 := by
    have hcount := h.count_le v
    rwa [List.count_eq_zero.mpr hstart, Nat.zero_add, List.count_eq_one_of_mem his hv] at hcount
  rw [List.count_append, List.count_cons_self] at honce
  obtain ⟨front, back, rfl, hfront, hput⟩ := exists_putAfter (p := p) hv
  have hback : v ∉ back := (List.nodup_cons.mp (List.nodup_append.mp his).2.1).1
  obtain ⟨mid, hrun, hrest⟩ := append.mp h
  obtain _ | ⟨hmove, hrest⟩ := hrest
  obtain ⟨n, base, hn, rfl, rfl⟩ := hmove
  -- The value is not there before it is made, and never popped afterwards.
  have hbefore := hrun.count_le v
  rw [List.count_eq_zero.mpr hstart, List.count_eq_zero.mpr hfront] at hbefore
  simp only [List.count_append] at hbefore
  have hafter := hrest.count_le v
  rw [List.count_eq_zero.mpr hback, List.count_append, List.count_append, List.count_cons_self] at hafter
  have hleaves : n.leavesValue = true := by
    by_contra hnot
    rw [if_neg hnot, List.count_nil] at hafter
    omega
  rw [if_pos hleaves] at hrest
  let f (a : InstId) : InstId := if a = v then p else a
  have hf : ∀ a, a ≠ v → f a = a := fun a ha => if_neg ha
  have hmapped := hrest.map hback (by simp only [List.count_append, List.count_cons_self]; simp; omega) hf
  rw [List.map_append, List.map_append, List.map_singleton, List.map_cons, map_eq_self hf (l := base) (by omega),
    map_eq_self hf (l := below) (by omega), map_eq_self hf (l := above) (by omega),
    show f v = p from if_pos rfl] at hmapped
  rw [hput]
  refine append.mpr ⟨_, hrun, .cons ⟨n, base, hn, rfl, rfl⟩ ?_⟩
  rw [if_pos hleaves]
  exact .cons (moves_push hp) hmapped

theorem Executes.pushAll (h : r.Executes is start (base ++ vs)) (hstart : ∀ v ∈ vs, v ∉ start)
    (his : (ps ++ is).Nodup) (hvs : ∀ v ∈ vs, v ∈ is)
    (hps : List.Forall₂ (fun v p => r.inst p = .ok (.pushArgument v)) vs ps) :
    r.Executes (pushAll vs ps is) start (base ++ ps) := by
  induction hps generalizing base is with
  | nil => exact h
  | @cons v p vs ps hp _ ih =>
    rw [List.forall_mem_cons] at hstart hvs
    rw [List.cons_append, List.nodup_cons] at his
    rw [Midend.pushAll, pushInto_of_mem hvs.1]
    have hpushed := h.push hstart.1 (List.nodup_append.mp his.2).2.1 hvs.1 hp
    rw [← List.singleton_append, ← List.append_assoc] at hpushed ⊢
    refine ih hpushed hstart.2 ?_ fun u hu =>
      (Layout.putAfter_perm hvs.1).mem_iff.mpr (List.mem_cons_of_mem p (hvs.2 u hu))
    rw [((Layout.putAfter_perm hvs.1).append_left ps).nodup_iff, List.perm_middle.nodup_iff, List.nodup_cons]
    exact his

theorem Executes.mem_of_above (h : r.Executes is start (below ++ v :: above)) (hv : v ∉ start) :
    ∀ u ∈ v :: above, u ∈ is := by
  obtain ⟨old, new, hsplit, hold, hnew⟩ := h.exists_below
  obtain ⟨mid, rfl, hmid⟩ | ⟨mid, rfl, rfl⟩ := List.append_eq_append_iff.mp hsplit
  · cases mid with
    | nil =>
      rw [List.nil_append] at hmid
      rwa [hmid]
    | cons w mid =>
      obtain ⟨rfl, -⟩ := List.cons.inj hmid
      exact absurd (hold.subset (by simp)) hv
  · exact fun u hu => hnew u (List.mem_append_right mid hu)

end FlowGraph

/-! ## Calls that are renamed -/

section Calls

variable {old : List InstId} {d : Inst}

theorem not_isLocalIn_push (hp : r.inst p = .ok (.pushArgument v)) : Ssa.isLocalIn r p = false := by
  obtain ⟨n, hn, hinst⟩ := FlowGraph.inst_eq_ok.mp hp
  rw [Ssa.isLocalIn_eq hn, hinst]
  rfl

theorem Emitted.exists_push (h : Emitted old b vs ps call d r) (hp : p ∈ ps) :
    ∃ v, r.inst p = .ok (.pushArgument v) := by
  obtain ⟨k, hk, rfl⟩ := List.getElem_of_mem hp
  have hv : k < vs.length := by rwa [h.pushes.length_eq]
  exact ⟨_, (List.forall₂_iff_get.mp h.pushes).2 k hv hk⟩

theorem Emitted.not_mem_start (h : Emitted old b vs ps call d r) (hr : Raw r) (hstack : r.StackAt b start)
    (hv : v ∈ r.beforeCall b call ps) : v ∉ start := by
  obtain ⟨⟨back, hinsts⟩, -⟩ := h.insts_eq hr
  intro hmem
  obtain ⟨c, hne, -, hc⟩ := hstack.exists_above hmem
  refine hne (Ssa.Raw.block_unique hr hc ?_)
  rw [hinsts]
  exact List.mem_append_left _ ((mem_pushAll h.pushes.length_eq).mpr (.inr hv))

/-- With one argument, or with all values made in the block, the pushes and the call find their operands. -/
theorem Emitted.served (h : Emitted old b vs ps call d r) (hr : Raw r) (hstack : r.StackAt b start)
    (htop : r.Executes (r.beforeCall b call ps) start (base ++ vs)) (hplaces : vs.length ≤ 1 ∨ ∀ v ∈ vs, v ∈ old)
    (hx : x ∈ ps ++ [call]) : Ssa.Served r x := by
  obtain ⟨⟨back, hinsts⟩, hnodup, hold⟩ := h.insts_eq hr
  have htakes := h.takes
  obtain ⟨n, hn, rfl⟩ := FlowGraph.inst_eq_ok.mp h.call
  have hpushed : r.Executes (pushAll vs ps (r.beforeCall b call ps)) start (base ++ ps) := by
    by_cases hall : ∀ v ∈ vs, v ∈ r.beforeCall b call ps
    · exact htop.pushAll (fun v hv => h.not_mem_start hr hstack (hall v hv)) hnodup hall h.pushes
    · obtain ⟨v, hv, hout⟩ : ∃ v ∈ vs, v ∉ r.beforeCall b call ps := by simpa using hall
      have hlen : vs.length ≤ 1 := hplaces.resolve_right fun hin => hout ((hold v hv).mpr (hin v hv))
      obtain ⟨u, rfl⟩ := List.length_eq_one_iff.mp (Nat.le_antisymm hlen (List.length_pos_of_mem hv))
      obtain rfl := List.mem_singleton.mp hv
      obtain ⟨p, us, hp, hnil, rfl⟩ := List.forall₂_cons_left_iff.mp h.pushes
      obtain rfl := List.forall₂_nil_left_iff.mp hnil
      rw [pushAll, pushInto_of_notMem hout]
      exact FlowGraph.Executes.append.mpr ⟨_, htop, .cons (FlowGraph.moves_push hp) (.nil _)⟩
  have hcall : r.Moves call (base ++ ps) (base ++ if n.leavesValue then [call] else []) :=
    ⟨n, base, hn, by rw [htakes.arguments, htakes.args, List.append_nil], rfl⟩
  have hrun := FlowGraph.Executes.append.mpr ⟨_, hpushed, .cons hcall (.nil _)⟩
  have hmem : x ∈ pushAll vs ps (r.beforeCall b call ps) ++ [call] := by
    rw [List.mem_append, mem_pushAll h.pushes.length_eq]
    exact (List.mem_append.mp hx).imp_left .inl
  obtain ⟨front, back', mid, mid', hsplit, hfront, hmove⟩ := hrun.exists_move hmem
  refine ⟨⟨b, front, back' ++ back, start, mid, mid', hstack, ?_, hfront, hmove⟩, fun m hm a ha => ?_⟩
  · rw [hinsts, ← List.singleton_append, ← List.append_assoc, hsplit, List.append_assoc, List.cons_append]
  · obtain hxp | hxc := List.mem_append.mp hx
    · obtain ⟨v, hpush⟩ := h.exists_push hxp
      obtain ⟨m', hm', hinst⟩ := FlowGraph.inst_eq_ok.mp hpush
      obtain rfl : m = m' := by simpa [hm] using hm'
      rw [hinst] at ha
      cases ha
    · obtain rfl := List.mem_singleton.mp hxc
      obtain rfl : m = n := by simpa [hm] using hn
      rw [htakes.arguments] at ha
      obtain ⟨v, hpush⟩ := h.exists_push ha
      exact not_isLocalIn_push hpush

end Calls

/-! ## Calls that are given up -/

namespace Ssa

variable {g₀ : FlowGraph} {t : Tour} {s : Names} {init f f' : Frame} {out : BlockId → Frame} {a i : InstId}

theorem Step.of_push (hstep : Step r g₀ s g p f f') (hp : r.inst p = .ok (.pushArgument v)) :
    ∃ rest w, f = rest ++ [w] ∧ resolve r s v = some w ∧ f' = rest ++ [p] := by
  obtain ⟨n, as, rest, hstep⟩ := hstep
  obtain ⟨m, hm, hinst⟩ := FlowGraph.inst_eq_ok.mp hp
  obtain rfl : n = m := by simpa [hstep.built] using hm
  have hinputs := hstep.inputs
  have hleaves := hstep.leaves
  rw [hinst] at hinputs
  obtain ⟨w, us, hw, hnil, rfl⟩ := List.forall₂_cons_left_iff.mp hinputs
  obtain rfl := List.forall₂_nil_left_iff.mp hnil
  refine ⟨rest, w, ?_, hw, ?_⟩
  · rw [hstep.frame, hinst]
    simp [Inst.arguments]
  · simpa [Leaves, hinst, Inst.opcode] using hleaves

theorem AllRenamed.stands (h : AllRenamed r t g₀ init s g out) (hstack : r.StackAt b start) :
    Stands r s start (into t init out b) := by
  have hmem : b ∈ t.preorder := h.base.touring.mem_preorder_iff_reachable.mpr hstack.reachable
  refine stands_of_runs (g := g) h.base h.starts (fun b f => b ∈ t.preorder ∧ f = into t init out b)
    (fun b f => b ∈ t.preorder ∧ b ≠ FlowGraph.graphEntry ∧ f = out b) ?_ ?_ ?_ hstack ⟨hmem, rfl⟩
  · exact fun f hf => hf.2.trans (if_pos rfl)
  · rintro b d f hne hd ⟨-, rfl⟩
    exact ⟨(h.base.touring.mem_of_idom? hd).2, h.base.touring.idom?_ne_graphEntry h.base.catchEntries hne hd,
      into_of_idom hd hne⟩
  · rintro b _ ⟨hb, hne, rfl⟩
    exact ⟨_, ⟨hb, rfl⟩, (h.block b hb hne).runs⟩

theorem AllRenamed.resolve_ne (h : AllRenamed r t g₀ init s g out) (hstack : r.StackAt b start) (ha : a ∈ start)
    (hi : i ∈ r.insts b) : resolve r s a ≠ some i := by
  intro hresolve
  have hmem : b ∈ t.preorder := h.base.touring.mem_preorder_iff_reachable.mpr hstack.reachable
  have hvalues := (h.stands hstack).values
  obtain ⟨k, hk, rfl⟩ := List.getElem_of_mem ha
  have hk' := hk
  rw [hvalues.length_eq] at hk'
  have hget := (List.forall₂_iff_get.mp hvalues).2 k hk hk'
  simp only [List.get_eq_getElem] at hget
  rw [hresolve, Option.some_inj] at hget
  have hframe : i ∈ into t init out b := by
    rw [hget]
    exact List.mem_of_mem_drop (List.getElem_mem hk')
  exact Origin.ne h.base ((h.stocked hmem hstack.ne_graphEntry).1.origin i hframe) hi List.not_mem_nil rfl

theorem AllRenamed.not_step_push (h : AllRenamed r t g₀ init s g out) (hstack : r.StackAt b start) (hv : v ∈ start)
    (hp : r.inst p = .ok (.pushArgument v)) (hi : i ∈ r.insts b) : ¬ Step r g₀ s g p (f ++ [i]) f' := by
  intro hstep
  obtain ⟨rest, w, hf, hw, -⟩ := hstep.of_push hp
  obtain rfl : i = w := by simpa using (List.append_inj' hf rfl).2
  exact h.resolve_ne hstack hv hi hw

end Ssa

section Calls

variable {old : List InstId} {d : Inst}

theorem Emitted.mem_insts (h : Emitted old b vs ps call d r) (hr : Raw r) (hp : p ∈ ps) : p ∈ r.insts b := by
  obtain ⟨⟨back, hinsts⟩, -⟩ := h.insts_eq hr
  rw [hinsts]
  exact List.mem_append_left _ ((mem_pushAll h.pushes.length_eq).mpr (.inl hp))

variable {v₁ v₂ : InstId} {g₀ : FlowGraph} {t : Flow.Tour} {s : Ssa.Names} {init : Ssa.Frame}
    {out : BlockId → Ssa.Frame}

/-- If the other arguments are pushed where they are, the last of them is on top when the first is pushed. -/
theorem Emitted.not_renamed_of_made (h : Emitted old b (v₁ :: vs) ps call d r) (hr : Raw r) (hstack : r.StackAt b start)
    (htop : r.Executes (r.beforeCall b call ps) start (base ++ v₁ :: vs)) (hne : vs ≠ []) (hbefore : v₁ ∈ start)
    (hfirst : v₁ ∉ r.beforeCall b call ps) (hothers : ∀ u ∈ vs, u ∈ r.beforeCall b call ps) :
    ¬ Ssa.AllRenamed r t g₀ init s g out := by
  intro hall
  obtain ⟨⟨back, hinsts⟩, hnodup, -⟩ := h.insts_eq hr
  have hruns := (hall.block b (hall.base.touring.mem_preorder_iff_reachable.mpr hstack.reachable)
    hstack.ne_graphEntry).runs
  obtain ⟨p₁, ps₁, hp₁, hpushes, rfl⟩ := List.forall₂_cons_left_iff.mp h.pushes
  have hrun : r.Executes (pushAll vs ps₁ (r.beforeCall b call (p₁ :: ps₁))) start (base ++ [v₁] ++ ps₁) :=
    FlowGraph.Executes.pushAll (by simpa using htop) (fun u hu => h.not_mem_start hr hstack (hothers u hu))
      (List.nodup_cons.mp hnodup).2 hothers hpushes
  rw [pushAll, pushInto_of_notMem hfirst, pushAll_append hothers, List.append_assoc] at hinsts
  rw [hinsts] at hruns
  obtain ⟨f, hfront, hback⟩ := Ssa.Runs.append.mp hruns
  obtain _ | ⟨hstep, -⟩ := hback
  obtain ⟨qs, q, rfl⟩ : ∃ qs q, ps₁ = qs ++ [q] :=
    (List.eq_nil_or_concat' ps₁).resolve_left fun hnil => hne (by simpa [hnil] using hpushes)
  have hstands := hfront.stands hall.base hrun ((hall.stands hstack).enter hall.base fun _ hphi => hphi)
  rw [← List.append_assoc] at hstands
  obtain ⟨rest, ws, rfl, -, hvalues⟩ := hstands.operands
  obtain ⟨w, us, hw, hnil, rfl⟩ := List.forall₂_cons_left_iff.mp hvalues
  obtain rfl := List.forall₂_nil_left_iff.mp hnil
  have hq : q ∈ p₁ :: (qs ++ [q]) := by simp
  obtain ⟨u, hpush⟩ := h.exists_push hq
  obtain rfl : q = w := by simpa [Ssa.resolve, not_isLocalIn_push hpush] using hw
  exact hall.not_step_push hstack hbefore hp₁ (h.mem_insts hr hq) hstep

theorem Emitted.not_renamed_of_before (h : Emitted old b (v₁ :: v₂ :: vs) ps call d r) (hr : Raw r)
    (hstack : r.StackAt b start) (hbefore : v₂ ∈ start) (hfirst : v₁ ∉ r.beforeCall b call ps)
    (hsecond : v₂ ∉ r.beforeCall b call ps) : ¬ Ssa.AllRenamed r t g₀ init s g out := by
  intro hall
  obtain ⟨⟨back, hinsts⟩, -⟩ := h.insts_eq hr
  have hruns := (hall.block b (hall.base.touring.mem_preorder_iff_reachable.mpr hstack.reachable)
    hstack.ne_graphEntry).runs
  obtain ⟨p₁, ps₁, hp₁, hpushes, rfl⟩ := List.forall₂_cons_left_iff.mp h.pushes
  obtain ⟨p₂, ps₂, hp₂, -, rfl⟩ := List.forall₂_cons_left_iff.mp hpushes
  obtain ⟨-, hapart₂, hapart⟩ := List.forall_mem_cons.mp h.apart |>.imp id List.forall_mem_cons.mp
  have hsecond' : v₂ ∉ r.beforeCall b call (p₁ :: p₂ :: ps₂) ++ [p₁] := by
    rw [List.mem_append, List.mem_singleton, not_or]
    exact ⟨hsecond, fun heq => hapart₂ (heq ▸ List.mem_cons_self)⟩
  have hapart' : ∀ u ∈ vs, u ∉ [p₁] ++ [p₂] := fun u hu hmem => hapart u hu (by simp at hmem ⊢; tauto)
  obtain ⟨front, back', hsplit⟩ :
    ∃ front back', pushAll vs ps₂ (r.beforeCall b call (p₁ :: p₂ :: ps₂) ++ ([p₁] ++ [p₂])) =
      front ++ ([p₁] ++ [p₂]) ++ back' :=
    exists_pushAll_append hapart' fun u hu hmem => hapart u hu (by simp [hmem])
  rw [pushAll, pushAll, pushInto_of_notMem hfirst, pushInto_of_notMem hsecond', List.append_assoc, hsplit,
    List.append_assoc, List.append_assoc] at hinsts
  rw [hinsts] at hruns
  obtain ⟨f, -, hback⟩ := Ssa.Runs.append.mp hruns
  obtain _ | ⟨hstep₁, hback⟩ := hback
  obtain _ | ⟨hstep₂, -⟩ := hback
  obtain ⟨rest, w, rfl, -, rfl⟩ := hstep₁.of_push hp₁
  exact hall.not_step_push hstack hbefore hp₂ (h.mem_insts hr List.mem_cons_self) hstep₂

theorem Emitted.refused (h : Emitted old b vs ps call d r) (hr : Raw r) (hstack : r.StackAt b start)
    (htop : r.Executes (r.beforeCall b call ps) start (base ++ vs)) (hlen : 2 ≤ vs.length) (hv : v ∈ vs)
    (hout : v ∉ old) (r' : FlowGraph) : Ssa.construct.run r ≠ .ok (.ok (), r') := by
  intro hrun
  obtain ⟨result, g', hrun', hpost⟩ := (Ssa.gives_construct hr).exists_ok
  obtain ⟨rfl, rfl⟩ := Prod.mk.inj (Except.ok.inj (hrun.symm.trans hrun'))
  obtain ⟨-, t, g₀, init, s, g, out, -, -, -, -, -, -, hall, -⟩ := hpost () rfl
  obtain ⟨-, -, hold⟩ := h.insts_eq hr
  obtain _ | ⟨v₁, _ | ⟨v₂, vs⟩⟩ := vs
  · cases hv
  · simp at hlen
  -- The first argument was made before, since whatever lies above a value of the block is of the block.
  have hfirst : v₁ ∉ r.beforeCall b call ps := fun hin =>
    hout ((hold v hv).mp (htop.mem_of_above (h.not_mem_start hr hstack hin) v hv))
  have hbefore {u : InstId} (hu : u ∈ base ++ v₁ :: v₂ :: vs) (hout : u ∉ r.beforeCall b call ps) : u ∈ start :=
    (htop.mem hu).resolve_right hout
  by_cases hsecond : v₂ ∈ r.beforeCall b call ps
  · have htop' : r.Executes (r.beforeCall b call ps) start ((base ++ [v₁]) ++ v₂ :: vs) := by simpa using htop
    have hothers : ∀ u ∈ v₂ :: vs, u ∈ r.beforeCall b call ps := htop'.mem_of_above (h.not_mem_start hr hstack hsecond)
    exact h.not_renamed_of_made hr hstack htop (List.cons_ne_nil v₂ vs) (hbefore (by simp) hfirst) hfirst hothers hall
  · exact h.not_renamed_of_before hr hstack (hbefore (by simp) hsecond) hfirst hsecond hall

end Calls

/-! ## The calls of a builder -/

section Builders

variable {m : Build InstId} {cs : List Command} {d : Inst}

/-- A call on the values on top of the stack pushes them in their order. It is renamed without a mismatch if there is
one value at most or all of them were made in the block, and given up in every other case. -/
theorem call_arguments_in_order (hm : IsCall vs m) (hg : Built b g) (hvs : ∀ v ∈ vs, v.index < g.nodes.size)
    (hrun : m b g = .ok ((call, b'), g')) (hcall : g'.inst call = .ok d)
    (hlater : ∀ c ∈ cs, ∀ v ∈ c.pushes, v ∉ vs ∧ v ∉ d.arguments) (hscript : Command.script cs b' g' = some (c, r))
    (hstack : r.StackAt b start) (htop : r.Executes (r.beforeCall b call d.arguments) start (base ++ vs)) :
    r.inst call = .ok d ∧ List.Forall₂ (fun v p => r.inst p = .ok (.pushArgument v)) vs d.arguments ∧
      (vs.length ≤ 1 ∨ (∀ v ∈ vs, v ∈ g.insts b) → ∀ x ∈ d.arguments ++ [call], ∀ e r',
        Ssa.construct.run r = .ok (.error e, r') → ¬ Ssa.Mismatch x e) ∧
      (2 ≤ vs.length → (∃ v ∈ vs, v ∉ g.insts b) → ∀ r', Ssa.construct.run r ≠ .ok (.ok (), r')) := by
  obtain ⟨hraw, hb⟩ := hg.raw
  obtain ⟨rfl, hraw', hb', ps, d', hemitted⟩ := Leads.post_of_ok (hm.emitted hraw hb hvs) hrun
  obtain rfl : d = d' := Except.ok.inj (hcall.symm.trans hemitted.call)
  rw [hemitted.takes.arguments] at hlater htop ⊢
  obtain ⟨hr, h⟩ := Command.script_keeps lasts_emitted hraw' hb' hlater hemitted hscript
  refine ⟨h.call, h.pushes, fun hplaces x hx e r' hbail => ?_, fun hlen ⟨v, hv, hout⟩ => ?_⟩
  · have hpasses := Ssa.construct_passes hr (h.served hr hstack htop hplaces hx)
    simpa only [Ends, hbail] using hpasses
  · exact h.refused hr hstack htop hlen hv hout

/-- A method with two parameters that calls a function on `vs` in the end. -/
structure CallRun where
  block : BlockId
  before : FlowGraph
  call : InstId
  block' : BlockId
  after : FlowGraph
  inst : Inst
  last : BlockId
  finished : FlowGraph

def callAfter (setup : List Command) (vs : List InstId) : Option CallRun := do
  let (block, before) ← Command.script setup FlowGraph.normalEntry (FlowGraph.new "f" 2 0)
  let ((call, block'), after) ← (Build.staticCall ⟨0⟩ vs block before).toOption
  let inst ← (after.inst call).toOption
  let (last, finished) ← Command.script [.inst (.unary .ret call)] block' after
  return { block, before, call, block', after, inst, last, finished }

structure CallRun.Valid (vs : List InstId) (w : CallRun) : Prop where
  built : Built w.block w.before
  run : Build.staticCall ⟨0⟩ vs w.block w.before = .ok ((w.call, w.block'), w.after)
  inst : w.after.inst w.call = .ok w.inst
  script : Command.script [.inst (.unary .ret w.call)] w.block' w.after = some (w.last, w.finished)

theorem valid_of_callAfter {setup : List Command} {w : CallRun} (h : callAfter setup vs = some w) : w.Valid vs := by
  unfold callAfter at h
  simp only [Option.bind_eq_bind, Option.bind_eq_some_iff, Prod.exists, toOption_eq_some_iff, Option.pure_def,
    Option.some_inj] at h
  obtain ⟨b, g, hsetup, call, b', g', hrun, d, hinst, c, r, hscript, rfl⟩ := h
  exact ⟨.script (@Built.start "f" 2 0 none (by decide)) hsetup, hrun, hinst, hscript⟩

theorem CallRun.Valid.raw {w : CallRun} (h : w.Valid vs) (hvs : ∀ v ∈ vs, v.index < w.before.nodes.size) :
    Raw w.finished := by
  obtain ⟨hraw, hb⟩ := h.built.raw
  obtain ⟨hblock, hraw', hb', -⟩ := Leads.post_of_ok ((IsCall.staticCall ⟨0⟩).emitted hraw hb hvs) h.run
  rw [hblock] at hb'
  exact (Command.script_keeps .trivial hraw' hb' (fun _ _ _ _ => trivial) trivial h.script).1

/-- The values are known, and on top of the stack when the call is to be made. -/
def CallRun.onTop (w : CallRun) (start vs : List InstId) : Bool :=
  vs.all (·.index < w.before.nodes.size) &&
    (w.finished.beforeCall w.block w.call w.inst.arguments).foldlM (fun stack i => w.finished.move? i stack) start ==
    some vs

/-- Two parameters are read and passed in one block. -/
def straightCall : List Command := [.inst (.loadLocal 0), .inst (.loadLocal 1)]

theorem straightCall_in_order : ∃ w : CallRun, w.Valid [⟨0⟩, ⟨1⟩] ∧ w.finished.StackAt w.block [] ∧
    w.finished.Executes (w.finished.beforeCall w.block w.call w.inst.arguments) [] ([] ++ [⟨0⟩, ⟨1⟩]) ∧
    ∀ x ∈ w.inst.arguments ++ [w.call], ∀ e r', Ssa.construct.run w.finished = .ok (.error e, r') →
    ¬ Ssa.Mismatch x e := by
  have h : (callAfter straightCall [⟨0⟩, ⟨1⟩]).map (fun w => w.block == FlowGraph.normalEntry &&
      w.onTop [] [⟨0⟩, ⟨1⟩] && ([⟨0⟩, ⟨1⟩] : List InstId).all (· ∈ w.before.insts w.block)) = some true := by
    decide +kernel
  obtain ⟨w, hw, hholds⟩ := Option.map_eq_some_iff.mp h
  simp only [CallRun.onTop, Bool.and_eq_true, beq_iff_eq, List.all_eq_true, decide_eq_true_eq] at hholds
  obtain ⟨⟨hblock, hknown, htop⟩, hplaces⟩ := hholds
  have hvalid := valid_of_callAfter hw
  have hstack : w.finished.StackAt w.block [] := hblock ▸ .entry
  have htop : w.finished.Executes _ [] ([] ++ [⟨0⟩, ⟨1⟩]) := FlowGraph.foldlM_move?_eq_some.mp htop
  exact ⟨w, hvalid, hstack, htop, (call_arguments_in_order (.staticCall ⟨0⟩) hvalid.built hknown hvalid.run hvalid.inst
    (by simp [Command.pushes]) hvalid.script hstack htop).2.2.1 (.inr hplaces)⟩

/-- The first argument is read in one block, and the second one in the next. -/
def straddlingCall : List Command :=
  [.joinBlock, .inst (.loadLocal 0), .inst (.goto ⟨2⟩), .appendTo ⟨2⟩, .inst (.loadLocal 1)]

/-- The instruction `i` of the block `d` alone leads to `b`. -/
def onlyJump (g : FlowGraph) (d : BlockId) (i : InstId) (b : BlockId) : Bool :=
  g.catchEntries.isEmpty && b != FlowGraph.graphEntry && b != FlowGraph.normalEntry && d != b &&
  d != FlowGraph.graphEntry &&
    g.lastInst d == some i && (g.nodes[i.index]?).any (b ∈ ·.inst.successors) &&
    (List.range g.nodes.size).all fun k => k == i.index || !((g.nodes[k]?).any (b ∈ ·.inst.successors))

theorem immediatelyDominates_of_onlyJump {i : InstId} (hg : Raw g) (h : onlyJump g c i b = true) :
    g.Edge c b ∧ g.ImmediatelyDominates c b := by
  simp only [onlyJump, Bool.and_eq_true, List.isEmpty_iff, bne_iff_ne, ne_eq, beq_iff_eq, List.all_eq_true,
    List.mem_range, Bool.or_eq_true, Bool.not_eq_true'] at h
  obtain ⟨⟨⟨⟨⟨⟨⟨hcatch, hb⟩, hnormal⟩, hne⟩, hc⟩, hlast⟩, hjump⟩, hothers⟩ := h
  obtain ⟨n, hn, hmem⟩ := (Option.any_eq_true _ _).mp hjump
  have hedge : g.Edge c b := by
    rw [FlowGraph.Edge, Raw.next_of_last hc hlast hn]
    simpa using hmem
  refine ⟨hedge, .of_edge hedge (fun a ha => ?_) hne hb⟩
  have hane : a ≠ FlowGraph.graphEntry := by
    rintro rfl
    rw [FlowGraph.Edge, Raw.next_graphEntry hcatch, List.mem_singleton] at ha
    exact hnormal ha
  obtain hnil | ⟨j, m, hj, hm, hnext⟩ := hg.next_eq hane
  · rw [FlowGraph.Edge, hnil] at ha
    cases ha
  · rw [FlowGraph.Edge, hnext] at ha
    obtain hji | hnone := hothers j.index (Array.getElem?_eq_some_iff.mp hm).1
    · obtain rfl : j = i := InstId.index_inj.mp hji
      exact Ssa.Raw.block_unique hg (List.mem_of_getLast? hj) (List.mem_of_getLast? hlast)
    · simp [hm, ha] at hnone

/-- Why the construction gives the method up, if it does. -/
def bailoutOf (g : FlowGraph) : Option Bailout :=
  match Ssa.construct.run g with
  | .ok (.error e, _) => some e
  | .ok (.ok _, _) => none
  | .error _ => none

theorem bailoutOf_eq_some {e : Bailout} (h : bailoutOf g = some e) :
    ∃ r', Ssa.construct.run g = .ok (.error e, r') := by
  unfold bailoutOf at h
  split at h
  case h_1 e' r' hrun =>
    obtain rfl := Option.some_inj.mp h
    exact ⟨r', hrun⟩
  case h_2 => cases h
  case h_3 => cases h

theorem straddlingCall_refused : ∃ (w : CallRun) (start : List InstId), w.Valid [⟨0⟩, ⟨2⟩] ∧
    w.finished.StackAt w.block start ∧
    w.finished.Executes (w.finished.beforeCall w.block w.call w.inst.arguments) start [⟨0⟩, ⟨2⟩] ∧
    ∃ x ∈ w.inst.arguments, ∃ e r', Ssa.construct.run w.finished = .ok (.error e, r') ∧ Ssa.Mismatch x e := by
  have h : (callAfter straddlingCall [⟨0⟩, ⟨2⟩]).map (fun w => w.block == ⟨2⟩ && w.onTop [⟨0⟩] [⟨0⟩, ⟨2⟩] &&
      onlyJump w.finished FlowGraph.normalEntry ⟨1⟩ ⟨2⟩ && w.inst.arguments.contains ⟨3⟩ &&
      (w.finished.insts FlowGraph.normalEntry).foldlM (fun stack i => w.finished.move? i stack) [] == some [⟨0⟩] &&
      bailoutOf w.finished == some (.malformedGraph (.inputMismatch 0 ⟨3⟩ ⟨0⟩ ⟨4⟩))) = some true := by
    decide +kernel
  obtain ⟨w, hw, hholds⟩ := Option.map_eq_some_iff.mp h
  simp only [CallRun.onTop, Bool.and_eq_true, beq_iff_eq, List.contains_iff_mem, List.all_eq_true,
    decide_eq_true_eq] at hholds
  obtain ⟨⟨⟨⟨⟨hblock, hknown, htop⟩, honly⟩, hargument⟩, hfirst⟩, hbail⟩ := hholds
  have hvalid := valid_of_callAfter hw
  obtain ⟨hedge, hdom⟩ := immediatelyDominates_of_onlyJump (hvalid.raw hknown) honly
  have hreachable : w.finished.Reachable ⟨2⟩ := .tail (.single List.mem_cons_self) hedge
  have hstack : w.finished.StackAt w.block [⟨0⟩] := by
    rw [hblock]
    exact .child hreachable hdom .entry (FlowGraph.foldlM_move?_eq_some.mp hfirst)
  obtain ⟨r', hrun⟩ := bailoutOf_eq_some hbail
  exact ⟨w, [⟨0⟩], hvalid, hstack, FlowGraph.foldlM_move?_eq_some.mp htop, ⟨3⟩, hargument, _, r', hrun,
    .input 0 ⟨0⟩ ⟨4⟩⟩

end Builders

end Midend
