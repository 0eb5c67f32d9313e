import Midend.Proofs.Execution.Traces
import Midend.Proofs.Loads.Rewriting

/-! # Places that executions pass

An execution that has followed a path was at every place of the path. What it has evaluated since is behind that place
in the same block, or in a block that it has come to later.
-/

/-! ## Graphs that instructions are taken out of

A stage takes instructions out of a graph and changes others, but neither what ends a block nor where it leads. Then
control takes the same paths, and what is evaluated along a path is what was, without what is gone.
-/

namespace Midend

/-- The instructions evaluate to values, end blocks and lead to other blocks alike. -/
structure Inst.SameKind (d d' : Inst) : Prop where
  opcode : d'.opcode = d.opcode
  successors : d'.successors = d.successors
  alive : d'.isAlivePhi = d.isAlivePhi

namespace Inst.SameKind

variable {d d' d'' : Inst}

theorem refl : SameKind d d := ⟨rfl, rfl, rfl⟩

theorem trans (h : SameKind d d') (h' : SameKind d' d'') : SameKind d d'' :=
  ⟨h'.opcode.trans h.opcode, h'.successors.trans h.successors, h'.alive.trans h.alive⟩

theorem mapArgs {f : Nat → InstId → InstId} : SameKind d (d.mapArgs f) :=
  ⟨opcode_mapArgs, successors_mapArgs, isAlivePhi_mapArgs⟩

theorem isTerminator (h : SameKind d d') : d'.isTerminator = d.isTerminator := by
  unfold Inst.isTerminator
  rw [h.opcode]

end Inst.SameKind

namespace Execution

open Midend.Flow FlowGraph Ssa
open Loads (Outline)

variable {g h : FlowGraph} {b : BlockId} {i : InstId} {n : Node} {path : List BlockId}

/-- `h` is `g` without some instructions that end no block, and the others are of the kind they were. -/
structure Thinned (g h : FlowGraph) : Prop where
  outline : Outline g h fun _ => none
  blocks : h.blocks = g.blocks
  nodes : Changes g h fun _ n n' => n.inst.SameKind n'.inst
  ends : ∀ b i n, i ∈ g.insts b → g.nodes[i.index]? = some n → n.inst.isTerminator = true → h.isPlaced i = true

theorem Thinned.of_definite (hg : Definite g) : Thinned g g where
  outline := .of_definite hg
  blocks := rfl
  nodes := ⟨rfl, fun _ n hn => ⟨n, hn, .refl⟩⟩
  ends _ _ _ hi _ _ := hg.isPlaced_of_mem hi

namespace Thinned

section

variable (ht : Thinned g h)

include ht

theorem map_inst {α : Type} {f : Inst → α} (hf : ∀ {d d'}, Inst.SameKind d d' → f d' = f d) (i : InstId) :
    (h.nodes[i.index]?).map (fun n => f n.inst) = (g.nodes[i.index]?).map fun n => f n.inst := by
  cases hn : g.nodes[i.index]? with
  | none =>
    rw [Array.getElem?_eq_none_iff.mpr (ht.nodes.size ▸ Array.getElem?_eq_none_iff.mp hn)]
  | some n =>
    obtain ⟨n', hn', hkind⟩ := ht.nodes.exists_node hn
    rw [hn', Option.map_some, Option.map_some, hf hkind]

theorem live_eq (b : BlockId) : h.live b = g.live b ∧ ∀ d, LivePhi h b d ↔ LivePhi g b d :=
  live_congr (by rw [ht.blocks]) (ht.map_inst (·.alive))

theorem mem_insts (hi : i ∈ h.insts b) : i ∈ g.insts b := by
  rw [ht.outline.insts] at hi
  exact (List.mem_filter.mp hi).1

theorem split {front rest : List InstId} (hsplit : h.insts b = front ++ i :: rest) : ∃ front₀ rest₀,
    g.insts b = front₀ ++ i :: rest₀ ∧ front = front₀.filter (h.isPlaced ·) ∧ rest = rest₀.filter (h.isPlaced ·) := by
  rw [ht.outline.insts] at hsplit
  obtain ⟨front₀, back₀, hinsts, rfl, hback⟩ := List.filter_eq_append_iff.mp hsplit
  obtain ⟨between, rest₀, rfl, hgone, -, rfl⟩ := List.filter_eq_cons_iff.mp hback
  refine ⟨front₀ ++ between, rest₀, by rw [hinsts, List.append_assoc], ?_, rfl⟩
  rw [List.filter_append, List.filter_eq_nil_iff.mpr hgone, List.append_nil]

end

variable (hg : Definite g) (ht : Thinned g h)

include hg ht

theorem lastInst_eq (hb : g.Reachable b) : h.lastInst b = g.lastInst b := ht.outline.lastInst_eq hg ht.ends hb

theorem isPath_iff : h.IsPath path ↔ g.IsPath path :=
  isPath_congr fun _ hb => next_congr ht.outline.catchEntries (ht.lastInst_eq hg hb) fun i _ =>
  ht.map_inst (·.successors) i

theorem reachable_iff : h.Reachable b ↔ g.Reachable b := by
  constructor <;> intro hb <;> obtain ⟨path, hpath, rfl⟩ := exists_path_of_reachable hb
  · exact ((ht.isPath_iff hg).mp hpath).reachable
  · exact ((ht.isPath_iff hg).mpr hpath).reachable

theorem traceable : Traceable h where
  entry := by rw [ht.outline.insts, hg.entry]; rfl
  ended b front i rest n' hb hsplit hn' hsucc := by
    obtain ⟨c, hc⟩ := List.exists_mem_of_ne_nil _ hsucc
    have hterm := Inst.isTerminator_of_mem_successors hc
    have hmem : i ∈ (g.insts b).filter (h.isPlaced ·) := by rw [← ht.outline.insts, hsplit]; simp
    obtain ⟨hi, hplaced⟩ := List.mem_filter.mp hmem
    obtain ⟨n, hn, hkind⟩ := ht.nodes.node i n' hn'
    rw [hkind.isTerminator] at hterm
    obtain ⟨front', rest', hsplit'⟩ := List.append_of_mem hi
    obtain rfl := hg.rest_of_terminator ((ht.reachable_iff hg).mp hb) hsplit' hn hterm
    have hnodup : (front ++ i :: rest).Nodup := hsplit ▸ ht.outline.sound.nodup b
    rw [ht.outline.insts, hsplit', List.filter_append, List.filter_cons_of_pos hplaced, List.filter_nil] at hsplit
    exact eq_nil_of_concat hsplit (List.nodup_cons.mp (List.nodup_append.mp hnodup).2.1).1
  live b d hb hphi := by
    rw [(ht.live_eq b).1]
    exact hg.live_of_livePhi ((ht.reachable_iff hg).mp hb) (((ht.live_eq b).2 d).mp hphi)

/-- What is evaluated along a path is what was, without what is gone. -/
theorem arrived_eq (hpath : g.IsPath path) :
    h.arrived path = (g.arrived path).filter fun d => !g.isPlaced d || h.isPlaced d := by
  induction hpath with
  | nil => rfl
  | @cons path b hedge hpath ih =>
    have hlive : (g.live b).filter (fun d => !g.isPlaced d || h.isPlaced d) = g.live b := by
      refine List.filter_eq_self.mpr fun d hd => ?_
      obtain ⟨-, -, hphi⟩ := live_iff.mp hd
      simp [hg.isPlaced_of_livePhi hphi]
    rw [arrived, arrived, List.filter_append, List.filter_append, ih, hlive, (ht.live_eq b).1, ht.outline.insts]
    congr 2
    exact List.filter_congr fun d hd => by simp [hg.isPlaced_of_mem hd]

end Thinned

end Execution

end Midend

namespace Midend.Execution

open Midend.Flow FlowGraph Ssa

variable {g h : FlowGraph} {M : Type} {m : Meaning M} {s₀ s s' : State M} {a b : BlockId} {d e i x : InstId}
  {path path₀ ahead : List BlockId} {front front₀ back rest since : List InstId} {n : Node}

theorem Step.exists_node (hstep : Step g m s s') (hrest : s.rest = i :: rest) : ∃ n, g.nodes[i.index]? = some n := by
  cases hstep with
  | define hn | pass hn | jump hn =>
    obtain ⟨rfl, rfl⟩ := List.cons.inj hrest
    exact ⟨_, hn⟩
  | begin => cases hrest

/-! ## Going on from a state -/

/-- The execution has gone on from `s₀` to a state, and has evaluated `since` on the way. -/
inductive Since (g : FlowGraph) (m : Meaning M) (s₀ : State M) : List InstId → State M → Prop
  | refl : Since g m s₀ [] s₀
  | within {since : List InstId} {b : BlockId} {i : InstId} {rest : List InstId} {σ : Values} {μ : M} {s' : State M}
      {n : Node} (h : Since g m s₀ since ⟨b, i :: rest, σ, μ⟩) (hn : g.nodes[i.index]? = some n)
      (hterm : n.inst.isTerminator = false) (hstep : Step g m ⟨b, i :: rest, σ, μ⟩ s') :
      Since g m s₀ (since ++ [i]) s'
  | across {since : List InstId} {s s' : State M} (h : Since g m s₀ since s)
      (hterm : ∀ i rest n, s.rest = i :: rest → g.nodes[i.index]? = some n → n.inst.isTerminator = true)
      (hstep : Step g m s s') : Since g m s₀ (since ++ (s.rest ++ g.live s'.block)) s'

/-- What has not been evaluated since has the value that it had, and where nothing has written memory, it is what it
was. -/
theorem Since.keeps (ht : Traceable g) (hfollows : Follows g m path₀ front₀ s₀) (h : Since g m s₀ since s) :
    (∃ path front, Follows g m path front s) ∧ (∀ d ∉ since, s.values d = s₀.values d) ∧
      (Quiet m → Silent g since → s.memory = s₀.memory) := by
  induction h with
  | refl => exact ⟨⟨_, _, hfollows⟩, fun _ _ => rfl, fun _ _ => rfl⟩
  | @within since b i rest σ μ s' n h hn hterm hstep ih =>
    obtain ⟨⟨path, front, hcome⟩, hvalues, hmemory⟩ := ih
    obtain ⟨-, r, hdoes, hothers, -⟩ := hstep.within rfl hn hterm
    refine ⟨⟨path, _, hcome.within hn hterm hstep⟩, fun d hd => ?_, fun hquiet hsilent => ?_⟩
    · rw [List.mem_append, not_or, List.mem_singleton] at hd
      exact (hothers d hd.2).trans (hvalues d hd.1)
    · refine (hquiet _ _ _ _ _ _ (hsilent i (by simp) n hn) hdoes).trans (hmemory hquiet fun x hx => ?_)
      exact hsilent x (List.mem_append_left _ hx)
  | @across since s s' h hterm hstep ih =>
    obtain ⟨⟨path, front, hcome⟩, hvalues, hmemory⟩ := ih
    obtain ⟨hpath, hblock, hinsts⟩ := hcome.sound ht
    obtain ⟨hothers, -, hquietly⟩ := hstep.across ht (hblock ▸ hpath.reachable) hinsts hterm
    have hcome' := hcome.across hterm hstep
    have hreach : g.Reachable s'.block := (hcome'.sound ht).1.reachable
    refine ⟨⟨_, _, hcome'⟩, fun d hd => ?_, fun hquiet hsilent => ?_⟩
    · rw [List.mem_append, List.mem_append, not_or, not_or] at hd
      exact (hothers d fun hphi => hd.2.2 (ht.live _ _ hreach hphi)).trans (hvalues d hd.1)
    · refine (hquietly hquiet fun x hx => hsilent x (by simp [hx])).trans (hmemory hquiet fun x hx => ?_)
      exact hsilent x (List.mem_append_left _ hx)

/-! ## Places on a path -/

theorem Follows.last_step (h : Follows g m path (front ++ [i]) s) : ∃ s₀ rest n, Follows g m path front s₀ ∧
    s₀.rest = i :: rest ∧ g.nodes[i.index]? = some n ∧ n.inst.isTerminator = false ∧ Step g m s₀ s := by
  generalize hfront : front ++ [i] = front' at h
  cases h with
  | start => simp at hfront
  | across => simp at hfront
  | within h hn hterm hstep =>
    obtain ⟨rfl, hi⟩ := List.append_inj' hfront rfl
    obtain rfl := List.singleton_injective hi
    exact ⟨_, _, _, h, rfl, hn, hterm, hstep⟩

theorem Follows.behind (ht : Traceable g) (h : Follows g m path front s) (hpath : path = ahead ++ a :: path₀)
    (hsplit : g.insts a = front₀ ++ rest) (hfront : ahead = [] → front = front₀ ++ since) (hx : x ∈ s.rest) :
    x ∈ rest ∨ ∃ c ∈ ahead, x ∈ g.live c ∨ x ∈ g.insts c := by
  obtain ⟨-, hblock, hinsts⟩ := h.sound ht
  subst hpath
  cases ahead with
  | nil =>
    rw [List.nil_append, List.headD_cons] at hblock
    rw [hblock, hsplit, hfront rfl, List.append_assoc, List.append_cancel_left_eq] at hinsts
    exact .inl (by simp [hinsts, hx])
  | cons c ahead =>
    rw [List.cons_append, List.headD_cons] at hblock
    exact .inr ⟨c, List.mem_cons_self, .inr (by rw [← hblock, hinsts]; simp [hx])⟩

theorem Follows.prefix_of_end (ht : Traceable g) (h : Follows g m (a :: path₀) front s)
    (hsplit : g.insts a = front₀ ++ rest) (hplain : ∀ i ∈ front₀, ∀ n, g.nodes[i.index]? = some n →
    n.inst.isTerminator = false) (hterm : ∀ i rest n, s.rest = i :: rest → g.nodes[i.index]? = some n →
    n.inst.isTerminator = true) (hstep : Step g m s s') : front₀ <+: front := by
  obtain ⟨-, hblock, hinsts⟩ := h.sound ht
  rw [hblock, List.headD_cons, hsplit] at hinsts
  obtain ⟨back, rfl, -⟩ | ⟨back, rfl, hrest⟩ := List.append_eq_append_iff.mp hinsts
  · exact List.prefix_append ..
  cases back with
  | nil => simp
  | cons x back =>
    obtain ⟨n, hn⟩ := hstep.exists_node hrest
    have hends := hterm x _ n hrest hn
    rw [hplain x (by simp) n hn] at hends
    cases hends

/-- The execution was at every place that its path leads through: behind `front₀` in the block `a`, from which it has
gone on to the blocks `ahead`. -/
theorem Follows.passes (ht : Traceable g) (h : Follows g m path front s) (hpath : path = ahead ++ a :: path₀)
    (hsplit : g.insts a = front₀ ++ rest)
    (hplain : ∀ i ∈ front₀, ∀ n, g.nodes[i.index]? = some n → n.inst.isTerminator = false)
    (hhere : ahead = [] → front₀ <+: front) :
    ∃ s₀ since, Follows g m (a :: path₀) front₀ s₀ ∧ Since g m s₀ since s ∧ (ahead = [] → front = front₀ ++ since) ∧
      ∀ x ∈ since, x ∈ rest ∨ ∃ c ∈ ahead, x ∈ g.live c ∨ x ∈ g.insts c := by
  induction h generalizing ahead with
  | start => simp at hpath
  | @within path front b i back σ μ s' n hfollows hn hterm hstep ih =>
    by_cases hlast : ahead = [] ∧ front₀ = front ++ [i]
    · obtain ⟨rfl, rfl⟩ := hlast
      obtain rfl : path = a :: path₀ := hpath
      exact ⟨s', [], hfollows.within hn hterm hstep, .refl, by simp, by simp⟩
    · obtain ⟨s₀, since, hcome, hsince, hfront, hmem⟩ := ih hpath fun hnil =>
        (List.prefix_concat_iff.mp (hhere hnil)).resolve_left fun h => hlast ⟨hnil, h⟩
      refine ⟨s₀, since ++ [i], hcome, hsince.within hn hterm hstep, fun hnil => by rw [hfront hnil, List.append_assoc],
        fun x hx => ?_⟩
      obtain hx | hx := List.mem_append.mp hx
      · exact hmem x hx
      · exact hfollows.behind ht hpath hsplit hfront (List.mem_singleton.mp hx ▸ List.mem_cons_self)
  | @across path front s s' hfollows hterm hstep ih =>
    cases ahead with
    | nil =>
      obtain ⟨rfl, rfl⟩ := List.cons.inj hpath
      obtain rfl := List.prefix_nil.mp (hhere rfl)
      exact ⟨s', [], hfollows.across hterm hstep, .refl, by simp, by simp⟩
    | cons c ahead =>
      obtain ⟨rfl, htail⟩ := List.cons.inj hpath
      have htail : path = ahead ++ a :: path₀ := htail
      obtain ⟨s₀, since, hcome, hsince, hfront, hmem⟩ := ih htail fun hnil => by
        subst hnil htail
        exact hfollows.prefix_of_end ht hsplit hplain hterm hstep
      refine ⟨s₀, _, hcome, hsince.across hterm hstep, by simp, fun x hx => ?_⟩
      rw [List.mem_append, List.mem_append] at hx
      have hahead (h : x ∈ rest ∨ ∃ c ∈ ahead, x ∈ g.live c ∨ x ∈ g.insts c) :
          x ∈ rest ∨ ∃ c ∈ s'.block :: ahead, x ∈ g.live c ∨ x ∈ g.insts c :=
        h.imp_right fun ⟨c, hc, h⟩ => ⟨c, List.mem_cons_of_mem _ hc, h⟩
      obtain hx | hx | hx := hx
      · exact hahead (hmem x hx)
      · exact hahead (hfollows.behind ht htail hsplit hfront hx)
      · exact .inr ⟨s'.block, List.mem_cons_self, .inl hx⟩

theorem Follows.since_start (ht : Traceable g) (h : Follows g m path front s) :
    ∃ s₀, Start g s₀ ∧ Since g m s₀ (g.arrived path ++ front) s := by
  induction h with
  | start hs => exact ⟨_, hs, .refl⟩
  | within _ hn hterm hstep ih =>
    obtain ⟨s₀, hs₀, hsince⟩ := ih
    refine ⟨s₀, hs₀, ?_⟩
    rw [← List.append_assoc]
    exact hsince.within hn hterm hstep
  | @across path front s s' hfollows hterm hstep ih =>
    obtain ⟨s₀, hs₀, hsince⟩ := ih
    obtain ⟨-, hblock, hinsts⟩ := hfollows.sound ht
    refine ⟨s₀, hs₀, ?_⟩
    rw [List.append_nil, arrived, ← hblock, hinsts, List.append_assoc, List.append_assoc, ← List.append_assoc]
    exact hsince.across hterm hstep

/-! ## Places of what is gone -/

theorem Behind.of_mem (hb : b ∈ ahead) (ha : a ∉ ahead) : Behind a b (ahead ++ a :: path₀) := by
  obtain ⟨front, back, rfl⟩ := List.append_of_mem hb
  simp only [List.mem_append, List.mem_cons, not_or] at ha
  exact ⟨front, back ++ a :: path₀, by simp, by simp [ha.1, ha.2.1]⟩

namespace Thinned

variable (hg : Definite g) (ht : Thinned g h)

include hg ht

/-- Where control has come by way of the place of `e`, it was right behind that place, and has evaluated neither `e` nor
anything that comes before `e` since. In the block of that place, it has evaluated what is in between. -/
theorem passes {later here : List InstId} (hfollows : Follows h m path front s)
    (hplace : g.insts a = front₀ ++ e :: back) (hn : g.nodes[e.index]? = some n) (hplain : n.inst.isTerminator = false)
    (hdom : g.Dominates a s.block) (hhere : g.insts s.block = here ++ later)
    (hfront : front = here.filter (h.isPlaced ·)) (hin : a = s.block → e ∈ here) :
    ∃ path₀ s₀ since, Follows h m (a :: path₀) ((front₀ ++ [e]).filter (h.isPlaced ·)) s₀ ∧
      Since h m s₀ since s ∧ (∀ x, x = e ∨ x ∈ g.initialDefinitions ∨ Precedes g x e → x ∉ since) ∧
      (a = s.block → ∃ between, here = front₀ ++ e :: between ∧ since = between.filter (h.isPlaced ·)) := by
  have htrace := ht.traceable hg
  obtain ⟨hpath, hblock, hinsts⟩ := hfollows.sound htrace
  have hpath := (ht.isPath_iff hg).mp hpath
  have he : e ∈ g.insts a := by simp [hplace]
  rw [hblock] at hdom
  have ha : a ∈ path := by
    have := hdom path hpath rfl
    rw [List.mem_append, List.mem_singleton] at this
    exact this.resolve_right (hg.ne_graphEntry he)
  obtain ⟨ahead, path₀, rfl, hfresh⟩ := List.eq_append_cons_of_mem ha
  have hahead : ahead = [] ↔ a = s.block := by
    rw [hblock]
    cases ahead with
    | nil => simp
    | cons c ahead => simpa using fun h : a = c => hfresh (h ▸ List.mem_cons_self)
  have hbetween (hnil : ahead = []) : ∃ between, here = front₀ ++ e :: between := by
    obtain ⟨front₁, between, rfl⟩ := List.append_of_mem (hin (hahead.mp hnil))
    have hsplit : g.insts a = front₁ ++ e :: (between ++ later) := by rw [hahead.mp hnil, hhere]; simp
    obtain ⟨rfl, -⟩ := hg.split_unique hplace hsplit
    exact ⟨between, rfl⟩
  have hsplit : h.insts a = (front₀ ++ [e]).filter (h.isPlaced ·) ++ back.filter (h.isPlaced ·) := by
    rw [ht.outline.insts, hplace, ← List.filter_append]
    simp
  have hends : ∀ i ∈ (front₀ ++ [e]).filter (h.isPlaced ·), ∀ n', h.nodes[i.index]? = some n' →
      n'.inst.isTerminator = false := by
    intro i hi n' hn'
    obtain ⟨n₀, hn₀, hkind⟩ := ht.nodes.node i n' hn'
    rw [hkind.isTerminator, Bool.eq_false_iff]
    intro hterm
    obtain hi | hi := List.mem_append.mp (List.mem_filter.mp hi).1
    · obtain ⟨front₁, back₁, rfl⟩ := List.append_of_mem hi
      have hrest := hg.rest_of_terminator (hdom.reachable hpath.reachable)
        (by rw [hplace]; simp : g.insts a = front₁ ++ i :: (back₁ ++ e :: back)) hn₀ hterm
      simp at hrest
    · obtain rfl := List.mem_singleton.mp hi
      obtain rfl := Option.some_inj.mp (hn.symm.trans hn₀)
      rw [hplain] at hterm
      cases hterm
  obtain ⟨s₀, since, hcome, hsince, hsame, hmem⟩ := hfollows.passes htrace rfl hsplit hends fun hnil => by
    obtain ⟨between, rfl⟩ := hbetween hnil
    rw [hfront, List.append_cons front₀ e between]
    exact (List.prefix_append ..).filter _
  refine ⟨path₀, s₀, since, hcome, hsince, fun x hx hxmem => ?_, fun hsameBlock => ?_⟩
  · obtain ⟨hback, hlater⟩ : x ∉ back ∧ ∀ c, Behind a c (ahead ++ a :: path₀) → x ∉ g.live c ∧ x ∉ g.insts c := by
      obtain rfl | hx := hx
      · have honce := hg.once hplace
        refine ⟨honce.not_back, fun c ⟨_, _, _, hnot⟩ => ⟨honce.not_live c, fun h => hnot ?_⟩⟩
        simp [honce.elsewhere c h]
      · exact hg.not_since hplace hpath hdom hx
    obtain h | ⟨c, hc, h⟩ := hmem x hxmem
    · exact hback (List.mem_filter.mp h).1
    · rw [(ht.live_eq c).1] at h
      exact not_or.mpr (hlater c (.of_mem hc hfresh)) (h.imp_right ht.mem_insts)
  · obtain ⟨between, rfl⟩ := hbetween (hahead.mpr hsameBlock)
    refine ⟨between, rfl, ?_⟩
    have hfront := hfront.symm.trans (hsame (hahead.mpr hsameBlock))
    rw [List.append_cons front₀ e between, List.filter_append, List.append_cancel_left_eq] at hfront
    exact hfront.symm

/-- Where control is about to execute `u`, it has come by way of the place of everything that comes before `u`. -/
theorem passes_before {u : InstId} (hfollows : Follows h m path front s) (hrest : s.rest = u :: rest)
    (hplace : g.insts a = front₀ ++ e :: back) (hn : g.nodes[e.index]? = some n) (hplain : n.inst.isTerminator = false)
    (heu : Precedes g e u) :
    ∃ path₀ s₀ since, Follows h m (a :: path₀) ((front₀ ++ [e]).filter (h.isPlaced ·)) s₀ ∧ Since h m s₀ since s ∧
      (∀ x, x = e ∨ x ∈ g.initialDefinitions ∨ Precedes g x e → x ∉ since) ∧
      (a = s.block → ∃ between later, g.insts a = front₀ ++ e :: (between ++ u :: later) ∧
        since = between.filter (h.isPlaced ·)) := by
  obtain ⟨-, -, hinsts⟩ := hfollows.sound (ht.traceable hg)
  rw [hrest] at hinsts
  obtain ⟨here, later, hhere, hfront, -⟩ := ht.split hinsts
  have he : e ∈ g.insts a := by simp [hplace]
  obtain ⟨a', he', hdom, hin⟩ := available_of_precedes hg he heu hhere
  obtain rfl := hg.block_unique he he'
  obtain ⟨path₀, s₀, since, hcome, hsince, hnot, hbetween⟩ :=
    ht.passes hg hfollows hplace hn hplain hdom hhere hfront hin
  refine ⟨path₀, s₀, since, hcome, hsince, hnot, fun hblock => ?_⟩
  obtain ⟨between, rfl, hsame⟩ := hbetween hblock
  exact ⟨between, later, by rw [hblock, hhere, List.append_assoc, List.cons_append], hsame⟩

theorem executed {u : InstId} (hfollows : Follows h m path front s) (hrest : s.rest = u :: rest) (he : e ∈ h.insts a)
    (hn : g.nodes[e.index]? = some n) (hplain : n.inst.isTerminator = false) (heu : Precedes g e u) :
    ∃ s₀ rest₀ s₁ since, (∃ path front, Follows h m path front s₀) ∧ s₀.rest = e :: rest₀ ∧ Step h m s₀ s₁ ∧
      (∃ path front, Follows h m path front s₁) ∧ Since h m s₁ since s ∧
      (∀ x, x = e ∨ x ∈ g.initialDefinitions ∨ Precedes g x e → x ∉ since) ∧
      (a = s.block → ∃ front later, h.insts a = front ++ e :: (since ++ u :: later)) := by
  obtain ⟨front₀, back, hplace⟩ := List.append_of_mem (ht.mem_insts he)
  obtain ⟨path₀, s₁, since, hcome, hsince, hnot, hbetween⟩ := ht.passes_before hg hfollows hrest hplace hn hplain heu
  have hplaced : h.isPlaced e = true := by
    rw [ht.outline.insts] at he
    exact (List.mem_filter.mp he).2
  have hcome₁ := hcome
  rw [List.filter_append, List.filter_cons_of_pos hplaced, List.filter_nil] at hcome
  obtain ⟨s₀, rest₀, -, hcome₀, hrest₀, -, -, hstep⟩ := hcome.last_step
  refine ⟨s₀, rest₀, s₁, since, ⟨_, _, hcome₀⟩, hrest₀, hstep, ⟨_, _, hcome₁⟩, hsince, hnot, fun hblock => ?_⟩
  obtain ⟨between, later, hinsts, rfl⟩ := hbetween hblock
  have hu : h.isPlaced u = true := by
    obtain ⟨-, -, hsplit⟩ := hfollows.sound (ht.traceable hg)
    have hmem : u ∈ h.insts s.block := by simp [hsplit, hrest]
    rw [ht.outline.insts] at hmem
    exact (List.mem_filter.mp hmem).2
  refine ⟨front₀.filter (h.isPlaced ·), later.filter (h.isPlaced ·), ?_⟩
  simp [ht.outline.insts, hinsts, hplaced, hu]

/-- A constant has its value from the start on. -/
theorem constant_value (hfollows : Follows h m path front s) (hd : d ∈ g.initialDefinitions)
    (hn : h.nodes[d.index]? = some n) {c : Constant} (hc : n.inst = .constant c) : s.values d = some (.constant c) := by
  have htrace := ht.traceable hg
  obtain ⟨s₀, hs₀, hsince⟩ := hfollows.since_start htrace
  obtain ⟨-, -, hinsts⟩ := hfollows.sound htrace
  have hnot : d ∉ h.arrived path ++ front := fun hmem => by
    obtain ⟨b, hb⟩ : ∃ b, d ∈ g.insts b ∨ d ∈ g.live b := by
      obtain hmem | hmem := List.mem_append.mp hmem
      · obtain ⟨b, -, hb⟩ := exists_of_mem_arrived hmem
        exact ⟨b, hb.imp ht.mem_insts fun h => (ht.live_eq b).1 ▸ h⟩
      · exact ⟨s.block, .inl (ht.mem_insts (by rw [hinsts]; exact List.mem_append_left _ hmem))⟩
    exact hg.not_initial_of_home hb hd
  obtain ⟨-, hvalues, -⟩ := hsince.keeps htrace (.start hs₀)
  obtain ⟨n', v, hn', hv, hconstant⟩ := hs₀.initial d (ht.outline.initial ▸ hd)
  obtain rfl := Option.some_inj.mp (hn.symm.trans hn')
  obtain rfl := hconstant c hc
  exact (hvalues d hnot).trans hv

end Thinned

end Midend.Execution
