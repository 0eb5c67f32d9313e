import Midend.Proofs.Execution.Definite
import Midend.Proofs.Flow.Current

/-! # What has been executed since

Along a path, every definition holds what it gave when it was last evaluated. Here it is said what has been evaluated
since then, and that an execution has followed a path.
-/

namespace Midend.Execution

open Midend.Flow FlowGraph Ssa

variable {g : FlowGraph} {a b c : BlockId} {d e i x : InstId} {path : List BlockId} {front back rest here : List InstId}

/-! ## The latest evaluation -/

/-- `e` is evaluated once on the way through `a`, with `back` behind it, and nowhere else. -/
structure Once (g : FlowGraph) (a : BlockId) (front : List InstId) (e : InstId) (back : List InstId) : Prop where
  split : g.insts a = front ++ e :: back
  not_back : e ∉ back
  elsewhere : ∀ b, e ∈ g.insts b → b = a
  not_live : ∀ b, e ∉ g.live b

/-- After its last visit to `a`, the path has been to `c`. -/
def Behind (a c : BlockId) (path : List BlockId) : Prop := ∃ front back, path = front ++ c :: back ∧ a ∉ front ++ [c]

theorem Behind.cons (h : Behind a c path) (hne : b ≠ a) : Behind a c (b :: path) := by
  obtain ⟨front, back, rfl, hmem⟩ := h
  exact ⟨b :: front, back, rfl, by simpa [Ne.symm hne] using hmem⟩

theorem Behind.head (hne : b ≠ a) : Behind a b (b :: path) := ⟨[], path, rfl, by simpa using Ne.symm hne⟩

theorem not_behind_self : ¬ Behind b c (b :: path) := by
  rintro ⟨front, back, hpath, hmem⟩
  cases front with
  | nil => simp [(List.cons.inj hpath).1] at hmem
  | cons => simp [(List.cons.inj hpath).1] at hmem

/-- What has been evaluated since a definition was is behind it in its block, or in a block that comes later. -/
theorem Once.exists_latest (he : Once g a front e back) (ha : a ∈ path) :
    ∃ pre post, g.arrived path ++ g.insts (path.headD graphEntry) = pre ++ e :: post ∧ e ∉ post ∧
      ∀ x ∈ post, x ∈ back ∨ ∃ c, Behind a c path ∧ (x ∈ g.live c ∨ x ∈ g.insts c) := by
  induction path with
  | nil => cases ha
  | cons b path ih =>
    rw [arrived, List.headD_cons]
    by_cases hb : b = a
    · subst hb
      refine ⟨g.arrived path ++ g.insts (path.headD graphEntry) ++ g.live b ++ front, back, ?_, he.not_back,
        fun x hx => .inl hx⟩
      rw [he.split]
      simp only [List.append_assoc]
    · obtain ⟨pre, post, hsplit, hpost, hsince⟩ := ih ((List.mem_cons.mp ha).resolve_left (Ne.symm hb))
      refine ⟨pre, post ++ g.live b ++ g.insts b, by rw [hsplit]; simp, ?_, fun x hx => ?_⟩
      · simp only [List.mem_append, not_or]
        exact ⟨⟨hpost, he.not_live b⟩, fun h => hb (he.elsewhere b h)⟩
      · simp only [List.mem_append, or_assoc] at hx
        obtain hx | hx := hx
        · obtain hx | ⟨c, hc, hx⟩ := hsince x hx
          · exact .inl hx
          · exact .inr ⟨c, hc.cons hb, hx⟩
        · exact .inr ⟨b, .head hb, hx⟩

theorem Once.exists_latest_before (he : Once g a front e back) (ha : a ∈ path) (hb : b ≠ a) (hhere : here ⊆ g.insts b) :
    ∃ pre post, g.arrived (b :: path) ++ here = pre ++ e :: post ∧ e ∉ post ∧
      ∀ x ∈ post, x ∈ back ∨ ∃ c, Behind a c (b :: path) ∧ (x ∈ g.live c ∨ x ∈ g.insts c) := by
  obtain ⟨pre, post, hsplit, hpost, hsince⟩ := he.exists_latest ha
  refine ⟨pre, post ++ g.live b ++ here, by rw [arrived, hsplit]; simp, ?_, fun x hx => ?_⟩
  · simp only [List.mem_append, not_or]
    exact ⟨⟨hpost, he.not_live b⟩, fun h => hb (he.elsewhere b (hhere h))⟩
  · simp only [List.mem_append, or_assoc] at hx
    obtain hx | hx := hx
    · obtain hx | ⟨c, hc, hx⟩ := hsince x hx
      · exact .inl hx
      · exact .inr ⟨c, hc.cons hb, hx⟩
    · exact .inr ⟨b, .head hb, hx.imp_right fun h => hhere h⟩

/-! ## What comes before -/

/-- Control comes to `i` by way of `e`: the block of `e` dominates the block of `i`, and if `e` is in the list of that
block it is in front of `i`. -/
def Precedes (g : FlowGraph) (e i : InstId) : Prop :=
  ∃ a b, (e ∈ g.insts a ∨ e ∈ g.live a) ∧ g.Reachable b ∧ i ∈ g.insts b ∧ g.Dominates a b ∧
    ∀ front back, g.insts b = front ++ i :: back → e ∈ g.insts b → e ∈ front

namespace Definite

variable (hg : Definite g)

include hg

theorem not_mem_live (he : e ∈ g.insts a) : e ∉ g.live b := fun h => by
  obtain ⟨-, -, hphi⟩ := live_iff.mp h
  exact hg.not_placed_of_livePhi hphi he

theorem once (hsplit : g.insts a = front ++ e :: back) : Once g a front e back where
  split := hsplit
  not_back h := by
    have hnodup : (front ++ e :: back).Nodup := hsplit ▸ hg.located.sound.nodup a
    exact (List.nodup_cons.mp (List.nodup_append.mp hnodup).2.1).1 h
  elsewhere b hb := hg.block_unique hb (by simp [hsplit])
  not_live b := hg.not_mem_live (by simp [hsplit] : e ∈ g.insts a)

theorem home_unique (hb : g.Reachable b) (hc : g.Reachable c) (h : d ∈ g.insts b ∨ d ∈ g.live b)
    (h' : d ∈ g.insts c ∨ d ∈ g.live c) : b = c := by
  obtain h | h := h
  · exact hg.block_unique h (h'.resolve_right (hg.not_mem_live h))
  · obtain ⟨-, -, hphi⟩ := live_iff.mp h
    obtain ⟨-, -, hphi'⟩ := live_iff.mp (h'.resolve_left fun hmem => hg.not_mem_live hmem h)
    exact hg.phi_unique hb hc hphi hphi'

theorem not_initial_of_home (h : d ∈ g.insts b ∨ d ∈ g.live b) : d ∉ g.initialDefinitions := by
  obtain h | h := h
  · exact hg.not_initial h
  · obtain ⟨-, -, hphi⟩ := live_iff.mp h
    exact hg.not_initial_of_livePhi hphi

theorem precedes_trans (hde : Precedes g d e) (hei : Precedes g e i) : Precedes g d i := by
  obtain ⟨a, b, hd, hb, he, hab, hfront⟩ := hde
  obtain ⟨b', c, he', hc, hi, hbc, hfront'⟩ := hei
  obtain rfl : b' = b := hg.home_unique (hbc.reachable hc) hb he' (.inl he)
  refine ⟨a, c, hd, hc, hi, hab.trans hbc, fun front back hsplit hmem => ?_⟩
  obtain rfl : a = c := hg.home_unique ((hab.trans hbc).reachable hc) hc hd (.inl hmem)
  obtain rfl : b' = a := hbc.antisymm hab hc
  obtain ⟨front₁, front₂, rfl⟩ := List.append_of_mem (hfront' front back hsplit he)
  exact List.mem_append_left _ (hfront front₁ (front₂ ++ i :: back) (by simpa using hsplit) hmem)

theorem not_precedes_self : ¬ Precedes g e e := by
  rintro ⟨a, b, -, -, he, -, hfront⟩
  obtain ⟨front, back, hsplit⟩ := List.append_of_mem he
  have hnodup : (front ++ e :: back).Nodup := hsplit ▸ hg.located.sound.nodup b
  exact (List.nodup_append.mp hnodup).2.2 e (hfront front back hsplit he) e List.mem_cons_self rfl

theorem exists_home (hb : g.Reachable b)
    (hread : ∀ path, g.IsPath path → path.headD graphEntry = b → d ∈ g.arrived path ++ g.insts b) :
    ∃ a, (d ∈ g.insts a ∨ d ∈ g.live a) ∧ g.Dominates a b := by
  have hhome (path : List BlockId) (hpath : g.IsPath path) (hhead : path.headD graphEntry = b) :
      ∃ a ∈ path ++ [graphEntry], g.Reachable a ∧ (d ∈ g.insts a ∨ d ∈ g.live a) := by
    obtain ⟨a, ha, hd⟩ : ∃ a ∈ path ++ [graphEntry], d ∈ g.insts a ∨ d ∈ g.live a := by
      obtain hmem | hmem := List.mem_append.mp (hread path hpath hhead)
      · exact exists_of_mem_arrived hmem
      · refine ⟨b, ?_, .inl hmem⟩
        rw [← hhead]
        cases path <;> simp
    obtain ⟨-, back, -, hback, rfl⟩ := hpath.suffix ha
    exact ⟨_, ha, hback.reachable, hd⟩
  obtain ⟨path, hpath, hhead⟩ := exists_path_of_reachable hb
  obtain ⟨a, -, hreach, hd⟩ := hhome path hpath hhead
  refine ⟨a, hd, fun path' hpath' hhead' => ?_⟩
  obtain ⟨a', ha', hreach', hd'⟩ := hhome path' hpath' hhead'
  rwa [hg.home_unique hreach hreach' hd hd']

theorem precedes_of_read (hb : g.Reachable b) (hi : i ∈ g.insts b)
    (hread : ∀ path, g.IsPath path → path.headD graphEntry = b → ∀ front back, g.insts b = front ++ i :: back →
      d ∈ g.arrived path ++ front) : Precedes g d i := by
  obtain ⟨a, hda, hdom⟩ := hg.exists_home hb fun path hpath hhead => by
    obtain ⟨front, back, hsplit⟩ := List.append_of_mem hi
    rw [hsplit, ← List.append_assoc]
    exact List.mem_append_left _ (hread path hpath hhead front back hsplit)
  refine ⟨a, b, hda, hb, hi, hdom, fun front back hsplit hmem => ?_⟩
  obtain ⟨path, hpath, hfresh⟩ := exists_path_to hb (hg.ne_graphEntry hi)
  have hnot (c : BlockId) (hc : c ∈ path ++ [graphEntry]) : d ∉ g.insts c ∧ d ∉ g.live c := by
    rw [← not_or]
    intro hdc
    obtain ⟨-, back', -, hback', hhead⟩ := hpath.tail.suffix hc
    obtain rfl := hg.home_unique (hhead ▸ hback'.reachable) hb hdc (.inl hmem)
    simp [hfresh, hg.ne_graphEntry hi] at hc
  have hthere := hread _ hpath rfl front back hsplit
  rw [arrived, List.mem_append, List.mem_append, List.mem_append] at hthere
  obtain ((hthere | hthere) | hthere) | hthere := hthere
  · obtain ⟨c, hc, hdc⟩ := exists_of_mem_arrived hthere
    exact absurd hdc (not_or.mpr (hnot c hc))
  · exact absurd hthere (hnot _ (by cases path <;> simp)).1
  · exact absurd hthere (hg.not_mem_live hmem)
  · exact hthere

theorem precedes_input (hb : g.Reachable b) (hi : i ∈ g.insts b) {n : Node} (hn : g.nodes[i.index]? = some n)
    (hd : d ∈ n.inst.args) : d ∈ g.initialDefinitions ∨ Precedes g d i := by
  rw [or_iff_not_imp_left]
  intro hinitial
  refine hg.precedes_of_read hb hi fun path hpath hhead front back hsplit => ?_
  obtain ⟨m, hm, hall⟩ := hg.reads.inputs path hpath (hhead ▸ hg.ne_graphEntry hi) front i back (hhead ▸ hsplit)
  obtain rfl := Option.some_inj.mp (hn.symm.trans hm)
  exact (hall d hd).resolve_left hinitial

/-- On a way to a block that the block of `e` dominates, nothing that comes before `e` is evaluated behind it. -/
theorem not_since (hsplit : g.insts a = front ++ e :: back) (hpath : g.IsPath path)
    (hdom : g.Dominates a (path.headD graphEntry)) (hx : x ∈ g.initialDefinitions ∨ Precedes g x e) :
    x ∉ back ∧ ∀ c, Behind a c path → x ∉ g.live c ∧ x ∉ g.insts c := by
  have he : e ∈ g.insts a := by simp [hsplit]
  obtain hx | ⟨c, b, hx, hb, he', hcb, hfront⟩ := hx
  · refine ⟨fun h => ?_, fun c _ => not_or.mp fun h => ?_⟩
    · exact hg.not_initial (by simp [hsplit, h] : x ∈ g.insts a) hx
    · exact hg.not_initial_of_home h.symm hx
  obtain rfl := hg.block_unique he he'
  refine ⟨fun h => ?_, fun c' hbehind => not_or.mp fun h => ?_⟩
  · have hmem : x ∈ g.insts a := by simp [hsplit, h]
    have hnodup : (front ++ e :: back).Nodup := hsplit ▸ hg.located.sound.nodup a
    exact (List.nodup_append.mp hnodup).2.2 x (hfront front back hsplit hmem) x (List.mem_cons_of_mem e h) rfl
  · obtain ⟨front', back', rfl, hnot⟩ := hbehind
    have hc' : g.Reachable c' := hpath.drop.reachable
    obtain rfl := hg.home_unique hc' (hcb.reachable hb) h.symm hx
    refine hpath.not_dominates_of_behind hnot hdom ?_ hcb
    rintro rfl
    obtain h | h := h
    · rw [hg.phisApart.entry] at h
      cases h
    · rw [hg.entry] at h
      cases h

theorem exists_latest (hpath : g.IsPath path) (he : e ∈ g.insts a) (hdom : g.Dominates a (path.headD graphEntry))
    (hhere : g.insts (path.headD graphEntry) = here ++ rest) (hin : a = path.headD graphEntry → e ∈ here) :
    ∃ pre post, g.arrived path ++ here = pre ++ e :: post ∧ e ∉ post ∧
      ∀ x, x ∈ g.initialDefinitions ∨ Precedes g x e → x ∉ post := by
  by_cases ha : a = path.headD graphEntry
  · obtain ⟨front, back, rfl⟩ := List.append_of_mem (hin ha)
    have hsplit : g.insts a = front ++ e :: (back ++ rest) := by simpa [ha] using hhere
    refine ⟨g.arrived path ++ front, back, by simp, fun h => ?_, fun x hx h => ?_⟩
    · exact (hg.once hsplit).not_back (List.mem_append_left rest h)
    · exact (hg.not_since hsplit hpath hdom hx).1 (List.mem_append_left rest h)
  · obtain ⟨front, back, hsplit⟩ := List.append_of_mem he
    cases path with
    | nil => exact absurd (dominates_graphEntry_iff.mp hdom) ha
    | cons b path =>
      have hmem : a ∈ path := by
        have := hdom _ hpath rfl
        simp only [List.headD_cons, List.cons_append, List.mem_cons, List.mem_append, List.not_mem_nil,
          or_false] at this ha
        exact (this.resolve_left ha).resolve_right (hg.ne_graphEntry he)
      have hsub : here ⊆ g.insts b := by
        rw [List.headD_cons] at hhere
        simp [hhere]
      obtain ⟨pre, post, htrace, hpost, hsince⟩ := (hg.once hsplit).exists_latest_before hmem (Ne.symm ha) hsub
      refine ⟨pre, post, htrace, hpost, fun x hx hmem => ?_⟩
      obtain ⟨hback, hlater⟩ := hg.not_since hsplit hpath hdom hx
      obtain h | ⟨c, hc, h⟩ := hsince x hmem
      · exact hback h
      · exact not_or.mpr (hlater c hc) h

end Definite

/-- `e` comes before whatever stands behind `front` in `b`. -/
def Available (g : FlowGraph) (b : BlockId) (front : List InstId) (e : InstId) : Prop :=
  ∃ a, e ∈ g.insts a ∧ g.Dominates a b ∧ (a = b → e ∈ front)

theorem Available.precedes (hg : Definite g) (h : Available g b front e) (hb : g.Reachable b)
    (hsplit : g.insts b = front ++ i :: back) : Precedes g e i := by
  obtain ⟨a, he, hdom, hfront⟩ := h
  refine ⟨a, b, .inl he, hb, by simp [hsplit], hdom, fun front' back' hsplit' hmem => ?_⟩
  obtain ⟨rfl, -⟩ := hg.split_unique hsplit hsplit'
  exact hfront (hg.block_unique he hmem)

theorem available_of_precedes (hg : Definite g) (he : e ∈ g.insts c) (hei : Precedes g e i)
    (hsplit : g.insts b = front ++ i :: back) : Available g b front e := by
  obtain ⟨a, b', he', hb', hi, hdom, hfront⟩ := hei
  obtain rfl := hg.block_unique hi (by simp [hsplit] : i ∈ g.insts b)
  have he' : e ∈ g.insts a := he'.resolve_right (hg.not_mem_live he)
  exact ⟨a, he', hdom, fun h => hfront front back hsplit (h ▸ he')⟩

theorem Available.trans (hg : Definite g) (hi : Available g b front i) (hb : g.Reachable b)
    (hsplit : g.insts b = front ++ rest) (he : e ∈ g.insts c) (hei : Precedes g e i) : Available g b front e := by
  obtain ⟨a, hia, hab, hfront⟩ := hi
  obtain ⟨front₁, back₁, hsplit₁⟩ := List.append_of_mem hia
  obtain ⟨a', he', hdom, hfront'⟩ := available_of_precedes hg he hei hsplit₁
  refine ⟨a', he', hdom.trans hab, ?_⟩
  rintro rfl
  obtain rfl : a = a' := hab.antisymm hdom hb
  obtain ⟨front₂, back₂, rfl⟩ := List.append_of_mem (hfront rfl)
  obtain ⟨rfl, -⟩ := hg.split_unique hsplit₁ (by rw [hsplit]; simp : g.insts a = front₂ ++ i :: (back₂ ++ rest))
  exact List.mem_append_left _ (hfront' rfl)

theorem Available.below (hexact : ExactDominators g g) (h : Available g b front e) (hb : g.Reachable b) {k : Block}
    (hk : g.blocks[b.index]? = some k) (hc : c ∈ k.dominated) : Available g c [] e := by
  obtain ⟨a, he, hdom, -⟩ := h
  obtain ⟨-, hcb, hbc, -⟩ := hexact.child hb hk hc
  refine ⟨a, he, hdom.trans hbc, ?_⟩
  rintro rfl
  exact absurd (hdom.antisymm hbc hb) hcb

/-! ## Graphs with the same paths -/

section

variable {g' : FlowGraph}

theorem live_congr (hphis : (g'.blocks[b.index]?).map Block.phis = (g.blocks[b.index]?).map Block.phis)
    (halive : ∀ i : InstId, (g'.nodes[i.index]?).map (·.inst.isAlivePhi) =
    (g.nodes[i.index]?).map (·.inst.isAlivePhi)) : g'.live b = g.live b ∧ ∀ d, LivePhi g' b d ↔ LivePhi g b d := by
  have hall : g'.phis b = g.phis b := by
    unfold FlowGraph.phis FlowGraph.block
    cases hk : g.blocks[b.index]? with
    | none =>
      rw [hk, Option.map_none, Option.map_eq_none_iff] at hphis
      simp only [hphis]
    | some k =>
      rw [hk, Option.map_some, Option.map_eq_some_iff] at hphis
      obtain ⟨k', hk', heq⟩ := hphis
      simp only [hk', orFault, bind, Except.bind, heq]
  have hread : g'.isAlivePhi = g.isAlivePhi := by
    funext i
    unfold FlowGraph.isAlivePhi FlowGraph.inst FlowGraph.node
    have hi := halive i
    cases hn : g.nodes[i.index]? with
    | none =>
      rw [hn, Option.map_none, Option.map_eq_none_iff] at hi
      simp only [hi]
    | some n =>
      rw [hn, Option.map_some, Option.map_eq_some_iff] at hi
      obtain ⟨n', hn', heq⟩ := hi
      simp only [hn', orFault, bind, Except.bind, pure, Except.pure, heq]
  refine ⟨?_, fun d => and_congr ?_ ?_⟩
  · unfold live livePhis
    rw [hall, hread]
  · unfold phisOf
    rw [hphis]
  · unfold aliveIn
    rw [halive]

theorem next_congr (hcatch : g'.catchEntries = g.catchEntries) (hlast : g'.lastInst b = g.lastInst b)
    (hsucc : ∀ i ∈ g.lastInst b, (g'.nodes[i.index]?).map (·.inst.successors) = (g.nodes[i.index]?).map
    (·.inst.successors)) : g'.next b = g.next b := by
  have hsuccs : g'.succs b = g.succs b := by
    unfold succs
    rw [hcatch, hlast]
    split
    · rfl
    cases hi : g.lastInst b with
    | none => rfl
    | some i =>
      have hsucc := hsucc i hi
      unfold FlowGraph.inst FlowGraph.node
      cases hn : g.nodes[i.index]? with
      | none =>
        rw [hn, Option.map_none, Option.map_eq_none_iff] at hsucc
        simp only [hsucc, hn]
      | some n =>
        rw [hn, Option.map_some, Option.map_eq_some_iff] at hsucc
        obtain ⟨n', hn', heq⟩ := hsucc
        simp only [hn, hn', orFault, bind, Except.bind, pure, Except.pure, heq]
  unfold next
  rw [hsuccs]

end

/-! ## Executions that follow a path -/

/-- A graph in which what leads to other blocks ends its block, and the entry is empty. -/
structure Traceable (g : FlowGraph) : Prop where
  entry : g.insts graphEntry = []
  ended : ∀ b front i rest n, g.Reachable b → g.insts b = front ++ i :: rest → g.nodes[i.index]? = some n →
    n.inst.successors ≠ [] → rest = []
  live : ∀ b d, g.Reachable b → LivePhi g b d → d ∈ g.live b

theorem Definite.traceable (hg : Definite g) : Traceable g where
  entry := hg.entry
  ended _ _ _ _ _ hb hsplit hn hsucc := by
    obtain ⟨c, hc⟩ := List.exists_mem_of_ne_nil _ hsucc
    exact hg.rest_of_terminator hb hsplit hn (Inst.isTerminator_of_mem_successors hc)
  live _ _ hb hphi := hg.live_of_livePhi hb hphi

variable {M : Type} {m : Meaning M} {s s' : State M}

/-- An execution has come to `s` on the path, and has executed `front` in the last block of it. -/
inductive Follows (g : FlowGraph) (m : Meaning M) : List BlockId → List InstId → State M → Prop
  | start {s : State M} (hs : Start g s) : Follows g m [] [] s
  | within {path : List BlockId} {front : List InstId} {b : BlockId} {i : InstId} {rest : List InstId} {σ : Values}
      {μ : M}
      {s' : State M} {n : Node} (h : Follows g m path front ⟨b, i :: rest, σ, μ⟩) (hn : g.nodes[i.index]? = some n)
      (hterm : n.inst.isTerminator = false) (hstep : Step g m ⟨b, i :: rest, σ, μ⟩ s') :
      Follows g m path (front ++ [i]) s'
  | across {path : List BlockId} {front : List InstId} {s s' : State M} (h : Follows g m path front s)
      (hterm : ∀ i rest n, s.rest = i :: rest → g.nodes[i.index]? = some n → n.inst.isTerminator = true)
      (hstep : Step g m s s') : Follows g m (s'.block :: path) [] s'

theorem not_isTerminator_of_isDefinition {d : Inst} (h : d.isDefinition = true) : d.isTerminator = false := by
  unfold Inst.isDefinition at h
  unfold Inst.isTerminator
  cases hop : d.opcode <;> simp [hop, Opcode.isDefinition, Opcode.isTerminator] at h ⊢

theorem Follows.of_reaches (h : Reaches g m s) : ∃ path front, Follows g m path front s := by
  refine h.induction (fun s => ∃ path front, Follows g m path front s) (fun s hs => ⟨[], [], .start hs⟩)
    fun s s' _ ⟨path, front, hfollows⟩ hstep => ?_
  cases hstep with
  | define hn hdef hargs hdoes =>
    exact ⟨path, _, hfollows.within hn (not_isTerminator_of_isDefinition hdef) (.define hn hdef hargs hdoes)⟩
  | pass hn hdef hterm hargs hdoes => exact ⟨path, _, hfollows.within hn hterm (.pass hn hdef hterm hargs hdoes)⟩
  | jump hn hterm hc hargs hdoes hgoes hcross =>
    refine ⟨_, _, hfollows.across (fun i rest n hrest hn' => ?_) (.jump hn hterm hc hargs hdoes hgoes hcross)⟩
    obtain ⟨rfl, rfl⟩ := List.cons.inj hrest
    obtain rfl := Option.some_inj.mp (hn.symm.trans hn')
    exact hterm
  | begin hc hcross =>
    exact ⟨_, _, hfollows.across (fun i rest n hrest => by cases hrest) (.begin hc hcross)⟩

theorem Follows.reaches (h : Follows g m path front s) : Reaches g m s := by
  induction h with
  | start hs => exact ⟨_, hs, .refl⟩
  | within _ _ _ hstep ih =>
    obtain ⟨s₀, hs₀, hsteps⟩ := ih
    exact ⟨s₀, hs₀, hsteps.tail hstep⟩
  | across _ _ hstep ih =>
    obtain ⟨s₀, hs₀, hsteps⟩ := ih
    exact ⟨s₀, hs₀, hsteps.tail hstep⟩

/-! ## What has not changed since -/

theorem Traceable.edge (ht : Traceable g) (hb : g.Reachable b) (hi : i ∈ g.insts b) {n : Node}
    (hn : g.nodes[i.index]? = some n) (hc : c ∈ n.inst.successors) : g.Edge b c := by
  obtain ⟨front, back, hsplit⟩ := List.append_of_mem hi
  obtain rfl := ht.ended b front i back n hb hsplit hn (List.ne_nil_of_mem hc)
  have hne : b ≠ graphEntry := by
    rintro rfl
    simp [ht.entry] at hi
  have hlast : g.lastInst b = some i := by
    show (g.insts b).getLast? = _
    rw [hsplit, List.getLast?_concat]
  unfold FlowGraph.Edge
  rwa [next_of_ok (SsaForm.succs_of_last hne hlast hn)]

theorem Follows.sound (ht : Traceable g) (h : Follows g m path front s) :
    g.IsPath path ∧ s.block = path.headD graphEntry ∧ g.insts s.block = front ++ s.rest := by
  induction h with
  | start hs => exact ⟨.nil, hs.block, by rw [hs.block, hs.rest, ht.entry]; rfl⟩
  | within h hn hterm hstep ih =>
    obtain ⟨hpath, hblock, hinsts⟩ := ih
    cases hstep with
    | define | pass => exact ⟨hpath, hblock, by simpa using hinsts⟩
    | jump hn' hterm' =>
      obtain rfl := Option.some_inj.mp (hn.symm.trans hn')
      rw [hterm] at hterm'
      cases hterm'
  | across h hterm hstep ih =>
    obtain ⟨hpath, hblock, hinsts⟩ := ih
    cases hstep with
    | define hn hdef =>
      have := hterm _ _ _ rfl hn
      rw [not_isTerminator_of_isDefinition hdef] at this
      cases this
    | pass hn _ hnot =>
      have := hterm _ _ _ rfl hn
      rw [hnot] at this
      cases this
    | jump hn hjump hc =>
      have hedge := ht.edge (hblock ▸ hpath.reachable) (by rw [hinsts]; simp) hn hc
      exact ⟨.cons (hblock ▸ hedge) hpath, rfl, rfl⟩
    | begin hc => exact ⟨.cons (hblock ▸ hc) hpath, rfl, rfl⟩

def Quiet (m : Meaning M) : Prop := ∀ σ μ i d r μ', d.hasSideEffect = false → m.does σ μ i d r μ' → μ' = μ

def Silent (g : FlowGraph) (es : List InstId) : Prop :=
  ∀ x ∈ es, ∀ n, g.nodes[x.index]? = some n → n.inst.hasSideEffect = false

theorem split_of_append {xs ys pre post : List InstId} (h : xs ++ ys = pre ++ e :: post) (hys : e ∉ ys) :
    ∃ mid, xs = pre ++ e :: mid ∧ post = mid ++ ys := by
  obtain ⟨as, -, heq⟩ | ⟨bs, hxs, hpost⟩ := List.append_eq_append_iff.mp h
  · simp [heq] at hys
  · cases bs with
    | nil =>
      obtain rfl : e :: post = ys := hpost
      simp at hys
    | cons x mid =>
      obtain ⟨rfl, rfl⟩ := List.cons.inj hpost
      exact ⟨mid, hxs, rfl⟩

theorem eq_nil_of_concat {xs pre post : List InstId} (h : xs ++ [e] = pre ++ e :: post) (hpost : e ∉ post) :
    post = [] := by
  by_contra hne
  obtain ⟨ys, x, rfl⟩ := (List.eq_nil_or_concat' post).resolve_left hne
  rw [← List.cons_append, ← List.append_assoc] at h
  obtain ⟨-, heq⟩ := List.append_inj' h rfl
  obtain rfl := List.singleton_injective heq
  simp at hpost

theorem Step.within (hstep : Step g m s s') (hrest : s.rest = i :: rest) {l : Node} (hl : g.nodes[i.index]? = some l)
    (hterm : l.inst.isTerminator = false) : s'.rest = rest ∧ ∃ r, m.does s.values s.memory i l.inst r s'.memory ∧
      (∀ a, a ≠ i → s'.values a = s.values a) ∧
      (l.inst.isDefinition = true → ∃ v, r = some v ∧ s'.values i = some v) := by
  cases hstep with
  | define hk _ _ hdoes =>
    obtain ⟨rfl, rfl⟩ := List.cons.inj hrest
    obtain rfl := Option.some_inj.mp (hl.symm.trans hk)
    exact ⟨rfl, _, hdoes, fun a ha => Function.update_of_ne ha .., fun _ => ⟨_, rfl, Function.update_self ..⟩⟩
  | pass hk hnot _ _ hdoes =>
    obtain ⟨rfl, rfl⟩ := List.cons.inj hrest
    obtain rfl := Option.some_inj.mp (hl.symm.trans hk)
    exact ⟨rfl, _, hdoes, fun _ _ => rfl, fun hdef => by simp [hdef] at hnot⟩
  | jump hk hjump =>
    obtain ⟨rfl, rfl⟩ := List.cons.inj hrest
    obtain rfl := Option.some_inj.mp (hl.symm.trans hk)
    simp [hterm] at hjump
  | begin => cases hrest

theorem Step.across (ht : Traceable g) (hstep : Step g m s s') (hb : g.Reachable s.block)
    (hinsts : g.insts s.block = front ++ s.rest) (hterm : ∀ i rest n, s.rest = i :: rest → g.nodes[i.index]? = some n →
    n.inst.isTerminator = true) : (∀ a, ¬ LivePhi g s'.block a → s'.values a = s.values a) ∧
      (∀ i ∈ s.rest, ∃ n, g.nodes[i.index]? = some n ∧ n.inst.isTerminator = true) ∧
      (Quiet m → Silent g s.rest → s'.memory = s.memory) := by
  cases hstep with
  | define hk hdef =>
    have := hterm _ _ _ rfl hk
    rw [not_isTerminator_of_isDefinition hdef] at this
    cases this
  | pass hk _ hnot =>
    have := hterm _ _ _ rfl hk
    rw [hnot] at this
    cases this
  | @jump b c i rest _ _ _ _ n hn hjump hc _ hdoes _ hcross =>
    obtain rfl : rest = [] := ht.ended b front i rest n hb hinsts hn (List.ne_nil_of_mem hc)
    obtain ⟨k, -, hvalues⟩ := hcross
    exact ⟨fun a => (hvalues a).2, by simp [hn, hjump],
      fun hquiet hsilent => hquiet _ _ _ _ _ _ (hsilent i List.mem_cons_self n hn) hdoes⟩
  | begin _ hcross =>
    obtain ⟨k, -, hvalues⟩ := hcross
    exact ⟨fun a => (hvalues a).2, by simp, fun _ _ => rfl⟩

def EndsBlock (g : FlowGraph) (a : InstId) : Prop := ∃ n, g.nodes[a.index]? = some n ∧ n.inst.isTerminator = true

theorem not_isTerminator_of_isAlivePhi {d : Inst} (h : d.isAlivePhi = true) : d.isTerminator = false := by
  obtain ⟨slot, as, r, rfl⟩ := Inst.eq_phi_of_isAlivePhi h
  rfl

/-- What has not been evaluated since an instruction was, or ends a block and has no value, is what the instruction was
evaluated with. A definition holds what it gave then. -/
theorem Follows.latest (ht : Traceable g) (h : Follows g m path front s) {n : Node} (hn : g.nodes[e.index]? = some n)
    (hgoes : n.inst.isTerminator = false) (hlive : ∀ b, e ∉ g.live b) {pre post : List InstId}
    (hsplit : g.arrived path ++ front = pre ++ e :: post) (hpost : e ∉ post) :
    ∃ σ μ r μ', m.does σ μ e n.inst r μ' ∧ (n.inst.isDefinition = true → ∃ v, r = some v ∧ s.values e = some v) ∧
      (∀ a, a ≠ e → a ∉ post ∨ EndsBlock g a → s.values a = σ a) ∧ (Quiet m → Silent g post → s.memory = μ') := by
  induction h generalizing post with
  | start => simp [arrived] at hsplit
  | @within path front b i rest σ μ s' l hfollows hl hterm hstep ih =>
    obtain ⟨-, r, hdoes, hothers, hresult⟩ := hstep.within rfl hl hterm
    rw [← List.append_assoc] at hsplit
    by_cases hi : e = i
    · subst hi
      obtain rfl := Option.some_inj.mp (hn.symm.trans hl)
      obtain rfl := eq_nil_of_concat hsplit hpost
      exact ⟨σ, μ, r, _, hdoes, hresult, fun a ha _ => hothers a ha, fun _ _ => rfl⟩
    · obtain ⟨mid, hold, rfl⟩ := split_of_append hsplit (by simpa using hi)
      obtain ⟨σ₀, μ₀, r₀, μ', hdoes₀, hvalue, hsame, hmemory⟩ := ih hold fun h => hpost (List.mem_append_left _ h)
      refine ⟨σ₀, μ₀, r₀, μ', hdoes₀, fun hdef => ?_, fun a ha hkeep => ?_, fun hquiet hsilent => ?_⟩
      · rw [hothers e hi]
        exact hvalue hdef
      · refine (hothers a ?_).trans (hsame a ha (hkeep.imp_left fun hmem h => hmem (List.mem_append_left _ h)))
        rintro rfl
        obtain hmem | ⟨k, hk, hend⟩ := hkeep
        · simp at hmem
        · obtain rfl := Option.some_inj.mp (hl.symm.trans hk)
          simp [hterm] at hend
      · refine (hquiet _ _ _ _ _ _ (hsilent i (by simp) l hl) hdoes).trans (hmemory hquiet fun x hx => ?_)
        exact hsilent x (List.mem_append_left _ hx)
  | @across path front s s' hfollows hterm hstep ih =>
    obtain ⟨hpath, hblock, hinsts⟩ := hfollows.sound ht
    obtain ⟨hothers, hrest, hquietly⟩ := hstep.across ht (hblock ▸ hpath.reachable) hinsts hterm
    have he : e ∉ s.rest ++ g.live s'.block := by
      rw [List.mem_append]
      rintro (hmem | hmem)
      · obtain ⟨l, hl, hjump⟩ := hrest e hmem
        obtain rfl := Option.some_inj.mp (hn.symm.trans hl)
        rw [hgoes] at hjump
        cases hjump
      · exact hlive _ hmem
    rw [arrived, List.append_nil, ← hblock, hinsts] at hsplit
    rw [← List.append_assoc, List.append_assoc] at hsplit
    obtain ⟨mid, hold, rfl⟩ := split_of_append hsplit he
    obtain ⟨σ₀, μ₀, r₀, μ', hdoes₀, hvalue, hsame, hmemory⟩ := ih hold fun h => hpost (List.mem_append_left _ h)
    have hreach : g.Reachable s'.block := ((hfollows.across hterm hstep).sound ht).1.reachable
    refine ⟨σ₀, μ₀, r₀, μ', hdoes₀, fun hdef => ?_, fun a ha hkeep => ?_, fun hquiet hsilent => ?_⟩
    · rw [hothers e fun hphi => hlive _ (ht.live _ _ hreach hphi)]
      exact hvalue hdef
    · refine (hothers a fun hphi => ?_).trans
        (hsame a ha (hkeep.imp_left fun hmem h => hmem (List.mem_append_left _ h)))
      obtain hmem | ⟨k, hk, hend⟩ := hkeep
      · exact hmem (by simp [ht.live _ _ hreach hphi])
      · obtain ⟨k', hk', halive⟩ := Definite.exists_alive hphi
        obtain rfl := Option.some_inj.mp (hk.symm.trans hk')
        simp [not_isTerminator_of_isAlivePhi halive] at hend
    · refine (hquietly hquiet fun x hx => hsilent x (by simp [hx])).trans (hmemory hquiet fun x hx => ?_)
      exact hsilent x (List.mem_append_left _ hx)

/-- What a definition gave when it was last evaluated is its value. -/
theorem Follows.kept (ht : Traceable g) (h : Follows g m path front s) {n : Node} (hn : g.nodes[e.index]? = some n)
    (hdef : n.inst.isDefinition = true) (hlive : ∀ b, e ∉ g.live b) {pre post : List InstId}
    (hsplit : g.arrived path ++ front = pre ++ e :: post) (hpost : e ∉ post) :
    ∃ σ μ v μ', m.does σ μ e n.inst (some v) μ' ∧ s.values e = some v ∧
      (∀ a, a ≠ e → a ∉ post ∨ EndsBlock g a → s.values a = σ a) ∧ (Quiet m → Silent g post → s.memory = μ') := by
  obtain ⟨σ, μ, r, μ', hdoes, hvalue, hsame, hmemory⟩ :=
    h.latest ht hn (not_isTerminator_of_isDefinition hdef) hlive hsplit hpost
  obtain ⟨v, rfl, hv⟩ := hvalue hdef
  exact ⟨σ, μ, v, μ', hdoes, hv, hsame, hmemory⟩

end Midend.Execution
