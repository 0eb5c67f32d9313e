import Midend.Proofs.Builder
import Midend.Proofs.Execution.Runs
import Midend.Proofs.Execution.Since
import Midend.Proofs.Sharing.Walk

/-! # Sharing keeps values

An instruction that gave way has another one with the same key in front of it on every path, and the inputs of that one
have not been evaluated since it was evaluated itself. Where the value of an instruction is determined by its key, the
instruction that is left holds the value that the other one would have had.
-/

namespace Midend.Sharing

open FlowGraph Execution
open Loads (Outline Wired Counts)

variable {g g' : FlowGraph} {κ : InstId → InstId} {b c : BlockId} {d e i x : InstId} {key : ValueKey} {n : Node}
  {path : List BlockId} {front back rest : List InstId} {changed : Bool}

/-! ## What sharing leaves -/

abbrev Shared (g g' : FlowGraph) (κ : InstId → InstId) : Prop := Walked g g' κ (fun _ => False) fun _ => False

theorem shareValues_of_ok (hg : Definite g) (hexact : ExactDominators g g) :
    Leads True g shareValues fun _ g' => ∃ κ, Shared g g' κ := by
  unfold shareValues
  rw [Leads.bind_iff, Leads.get_iff]
  refine shareTree_walks hg hexact _ _ ⟨FlowGraph.fringe_entry, fun s hs kv hkv => ?_⟩
    ((Walked.start hg).mono (fun _ => id) fun kv hkv => ?_)
  · rw [List.mem_singleton.mp hs] at hkv
    cases hkv
  · obtain ⟨s, hs, hkv⟩ := hkv
    rw [List.mem_singleton.mp hs] at hkv
    cases hkv

namespace Walked

section

variable (hw : Shared g g' κ)

include hw

theorem isPlaced_of_terminator (hi : i ∈ g.insts b) (hn : g.nodes[i.index]? = some n)
    (hterm : n.inst.isTerminator = true) : g'.isPlaced i = true := by
  by_contra hnot
  obtain ⟨-, -, hreplaces⟩ := hw.shared i ⟨⟨b, hi⟩, by simpa using hnot⟩
  obtain ⟨o, m, key, ho, -, hkey, -⟩ := hreplaces.keys
  obtain rfl := Option.some_inj.mp (hn.symm.trans ho)
  have := hkey.continues
  rw [Inst.isTerminator_mapArgs, hterm] at this
  cases this

theorem thinned : Thinned g g' where
  outline := hw.outline
  blocks := hw.blocks
  nodes := by
    have hsize : g'.nodes.size = g.nodes.size := by
      by_contra hne
      -- Sharing makes no instructions.
      have hlt : g.nodes.size < g'.nodes.size := Nat.lt_of_le_of_ne hw.outline.size (Ne.symm hne)
      simpa using (hw.outline.created ⟨g.nodes.size⟩).mpr ⟨Nat.le_refl _, hlt⟩
    refine ⟨hsize, fun j n' hn' => ?_⟩
    obtain ⟨n, hn⟩ : ∃ n, g.nodes[j.index]? = some n :=
      ⟨_, Array.getElem?_eq_getElem (hsize ▸ (Array.getElem?_eq_some_iff.mp hn').1)⟩
    obtain ⟨m, φ, hm, hinst⟩ := hw.wired.shapes j n hn
    obtain rfl := Option.some_inj.mp (hn'.symm.trans hm)
    exact ⟨n, hn, hinst ▸ .mapArgs⟩
  ends _ _ _ := hw.isPlaced_of_terminator

theorem live_eq (b : BlockId) : g'.live b = g.live b ∧ ∀ d, LivePhi g' b d ↔ LivePhi g b d := hw.thinned.live_eq b

end

theorem isPath_iff (hg : Definite g) (hw : Shared g g' κ) : g'.IsPath path ↔ g.IsPath path := hw.thinned.isPath_iff hg

theorem traceable (hg : Definite g) (hw : Shared g g' κ) : Traceable g' := hw.thinned.traceable hg

end Walked

/-- Control has come along the path, and through `front` in its last block, to the place where `i` was, or to something
that reads `i`: an instruction, a phi at the end of the edge to it, or an environment that `i` is available in. -/
inductive Concerns (g : FlowGraph) (i : InstId) (path : List BlockId) (front : List InstId) : Prop
  | position {back : List InstId} (hsplit : g.insts (path.headD graphEntry) = front ++ i :: back)
  | input {u : InstId} {n : Node} {back : List InstId} (hsplit : g.insts (path.headD graphEntry) = front ++ u :: back)
      (hn : g.nodes[u.index]? = some n) (hi : i ∈ n.inst.args)
  | edge {c : BlockId} {phi : InstId} {k : Nat} (hfront : g.insts (path.headD graphEntry) = front)
      (hedge : g.Edge (path.headD graphEntry) c) (hphi : LivePhi g c phi)
      (hk : (predsOf g c)[k]? = some (path.headD graphEntry)) (hi : Ssa.inputOf g phi k = some i)
  | environment {u : InstId} {n : Node} {env : Environment} {back : List InstId}
      (hsplit : g.insts (path.headD graphEntry) = front ++ u :: back) (hn : g.nodes[u.index]? = some n)
      (henv : n.env = some env) (hi : i ∈ env.values) (havailable : Available g (path.headD graphEntry) front i)

section

variable (hg : Definite g)

include hg

theorem available_of_edge {a : BlockId} {phi : InstId} {k : Nat} (hedge : g.Edge b c)
    (hphi : LivePhi g c phi) (hk : (predsOf g c)[k]? = some b) (hinput : Ssa.inputOf g phi k = some i)
    (hi : i ∈ g.insts a) : Available g b (g.insts b) i := by
  refine ⟨a, hi, fun path hpath hhead => ?_, fun h => h ▸ hi⟩
  subst hhead
  have hwhere := hg.evaluated_on_edge hpath hedge hphi hk hinput
  obtain hmem | hmem := List.mem_append.mp (hwhere.resolve_left (hg.not_initial hi))
  · obtain ⟨a', ha', h⟩ := exists_of_mem_arrived hmem
    rwa [hg.block_unique hi (h.resolve_right (hg.not_mem_live hi))]
  · rw [hg.block_unique hi hmem]
    cases path <;> simp

theorem Concerns.cases (hpath : g.IsPath path) (h : Concerns g i path front) (hi : i ∈ g.insts b) :
    (∃ back, g.insts (path.headD graphEntry) = front ++ i :: back) ∨
      Available g (path.headD graphEntry) front i ∧ ∃ rest, g.insts (path.headD graphEntry) = front ++ rest := by
  have hb := hpath.reachable
  cases h with
  | position hsplit => exact .inl ⟨_, hsplit⟩
  | input hsplit hn hread =>
    have hiu := (hg.precedes_input hb (by rw [hsplit]; simp) hn hread).resolve_left (hg.not_initial hi)
    exact .inr ⟨available_of_precedes hg hi hiu hsplit, _, hsplit⟩
  | edge hfront hedge hphi hk hread =>
    subst hfront
    exact .inr ⟨available_of_edge hg hedge hphi hk hread hi, [], (List.append_nil _).symm⟩
  | environment hsplit _ _ _ havailable => exact .inr ⟨havailable, _, hsplit⟩

theorem Concerns.available (hpath : g.IsPath path) (h : Concerns g i path front) (hi : i ∈ g.insts b)
    (he : e ∈ g.insts c) (hei : Precedes g e i) :
    Available g (path.headD graphEntry) front e ∧ ∃ rest, g.insts (path.headD graphEntry) = front ++ rest := by
  obtain ⟨back, hsplit⟩ | ⟨havailable, rest, hsplit⟩ := h.cases hg hpath hi
  · exact ⟨available_of_precedes hg he hei hsplit, _, hsplit⟩
  · exact ⟨havailable.trans hg hpath.reachable hsplit he hei, rest, hsplit⟩

end

/-- `e` has been evaluated, and none of its inputs since. -/
def Fresh (g : FlowGraph) (e : InstId) (trace : List InstId) : Prop :=
  ∃ pre post, trace = pre ++ e :: post ∧ e ∉ post ∧
    ∀ n, g.nodes[e.index]? = some n → ∀ a ∈ n.inst.args, a ∉ post

/-- Control has been where `i` was, and since then neither `e` nor any of its inputs has been evaluated. -/
def Unchanged (g' : FlowGraph) (i e : InstId) (trace : List InstId) : Prop :=
  ∃ pre post, trace = pre ++ i :: post ∧ e ∉ post ∧ ∀ n, g'.nodes[e.index]? = some n → ∀ a ∈ n.inst.args, a ∉ post

namespace Walked

variable (hg : Definite g) (hw : Shared g g' κ)

include hg hw

theorem precedes_input (hb : g.Reachable b) (he : e ∈ g.insts b) (hn : g.nodes[e.index]? = some n)
    (hd : d ∈ n.inst.args) : κ d ∈ g.initialDefinitions ∨ Precedes g (κ d) e := by
  have hinput := hg.precedes_input hb he hn hd
  obtain hgone | heq := hw.kept d
  · obtain ⟨a, ha⟩ := hgone.1
    exact .inr (hg.precedes_trans (hw.shared d hgone).2.2.precedes (hinput.resolve_left (hg.not_initial ha)))
  · rwa [heq]

theorem precedes_arg (hb : g.Reachable b) (he : e ∈ g.insts b) (hleft : ¬ Gone g g' e)
    (hn : g'.nodes[e.index]? = some n) (hx : x ∈ n.inst.args) : x ∈ g.initialDefinitions ∨ Precedes g x e := by
  obtain ⟨o, ho⟩ : ∃ o, g.nodes[e.index]? = some o := ⟨_, Array.getElem?_eq_getElem (hg.lt_size he)⟩
  rw [hw.wired.kept e o n (hw.counts_of_placed hb he hleft) ho hn, Inst.args_mapArgs_const] at hx
  obtain ⟨d, hd, rfl⟩ := List.mem_map.mp hx
  exact hw.precedes_input hg hb he ho hd

theorem fresh (hpath : g.IsPath path) (hconcerns : Concerns g i path front) (hi : Gone g g' i) :
    Fresh g' (κ i) (g'.arrived path ++ front.filter (g'.isPlaced ·)) := by
  obtain ⟨-, hnot, hreplaces⟩ := hw.shared i hi
  obtain ⟨⟨b, hib⟩, -⟩ := hi
  obtain ⟨c, hc, he⟩ := hreplaces.placed
  obtain ⟨⟨a, hea, hdom, hin⟩, rest, hsplit⟩ := hconcerns.available hg hpath hib he hreplaces.precedes
  obtain ⟨pre, post, htrace, hpost, hsince⟩ := hg.exists_latest hpath hea hdom hsplit hin
  have hleft := isPlaced_of_not_gone he hnot
  have hfront : front.filter (g'.isPlaced ·) = front.filter fun d => !g.isPlaced d || g'.isPlaced d :=
    List.filter_congr fun d hd => by
      have hmem : d ∈ g.insts (path.headD graphEntry) := by rw [hsplit]; exact List.mem_append_left rest hd
      simp [hg.isPlaced_of_mem hmem]
  rw [hw.thinned.arrived_eq hg hpath, hfront, ← List.filter_append, htrace, List.filter_append,
    List.filter_cons_of_pos (by simp [hleft])]
  exact ⟨_, _, rfl, fun h => hpost (List.mem_filter.mp h).1, fun m hm x hx h =>
    hsince x (hw.precedes_arg hg hc he hnot hm hx) (List.mem_filter.mp h).1⟩

/-- Where something reads an instruction that gave way, the one in its place is what it was when control was there. -/
theorem unchanged (hpath : g.IsPath path) (hconcerns : Concerns g i path front) (hi : Gone g g' i) :
    (∃ back, g.insts (path.headD graphEntry) = front ++ i :: back) ∨
    Unchanged g' i (κ i) (g.arrived path ++ front) := by
  obtain ⟨-, hnot, hreplaces⟩ := hw.shared i hi
  obtain ⟨⟨b, hib⟩, -⟩ := hi
  obtain ⟨c, hc, he⟩ := hreplaces.placed
  refine (hconcerns.cases hg hpath hib).imp_right fun ⟨⟨a, hia, hdom, hin⟩, rest, hsplit⟩ => ?_
  obtain ⟨pre, post, htrace, -, hsince⟩ := hg.exists_latest hpath hia hdom hsplit hin
  refine ⟨pre, post, htrace, hsince _ (.inr hreplaces.precedes), fun m hm x hx => hsince x ?_⟩
  exact (hw.precedes_arg hg hc he hnot hm hx).imp_right fun h => hg.precedes_trans h hreplaces.precedes

omit hg in
theorem kept_of_placed (hb : g.Reachable b) (hu : d ∈ g'.insts b ∨ LivePhi g' b d) (hn : g.nodes[d.index]? = some n) :
    ∃ n', g'.nodes[d.index]? = some n' ∧ n'.inst = n.inst.mapArgs fun _ => κ := by
  obtain ⟨n', -, hn', -⟩ := hw.wired.shapes d n hn
  exact ⟨n', hn', hw.wired.kept d n n' ((hu.imp fun h => ⟨b, hb, h⟩) fun h => .inl ⟨b, hb, ((hw.live_eq b).2 d).mp h⟩)
    hn hn'⟩

theorem not_self_input (hb : g.Reachable b) (he : e ∈ g.insts b) (hleft : ¬ Gone g g' e)
    (hn : g'.nodes[e.index]? = some n) : e ∉ n.inst.args := by
  intro h
  obtain hinitial | hprecedes := hw.precedes_arg hg hb he hleft hn h
  · exact hg.not_initial he hinitial
  · exact hg.not_precedes_self hprecedes

end Walked

/-! ## Values -/

/-- What instructions evaluate to that memory does not affect is determined by their keys and the values of their
inputs. -/
def Determined {M : Type} (m : Meaning M) (result : ValueKey → List (Option Value) → Option Value) : Prop :=
  ∀ σ μ i d r μ' key, Keyed d key → m.does σ μ i d r μ' → r = result key (key.args.map σ)

theorem value_of_fresh {M : Type} {m : Meaning M} {result : ValueKey → List (Option Value) → Option Value} {s : State M}
    (ht : Traceable g) (hdetermined : Determined m result) (hs : Follows g m path front s)
    (hn : g.nodes[e.index]? = some n) (hkey : Keyed n.inst key) (hdef : n.inst.isDefinition = true)
    (hlive : ∀ b, e ∉ g.live b) (hself : e ∉ n.inst.args) (hfresh : Fresh g e (g.arrived path ++ front)) :
    ∃ v, s.values e = some v ∧ result key (key.args.map s.values) = some v := by
  obtain ⟨pre, post, htrace, hpost, hargs⟩ := hfresh
  obtain ⟨σ, μ, v, μ', hdoes, hvalue, hsame, -⟩ := hs.kept ht hn hdef hlive htrace hpost
  refine ⟨v, hvalue, ?_⟩
  have hinputs : key.args.map s.values = key.args.map σ := by
    rw [(Inst.valueKey_eq_ok.mp hkey.key).2.2]
    refine List.map_congr_left fun a ha => hsame a ?_ (.inl (hargs n hn a ha))
    rintro rfl
    exact hself ha
  rw [hinputs, ← hdetermined _ _ _ _ _ _ _ hkey hdoes]

/-- `g'` is `g` without some instructions, and whatever read a definition `d` reads `κ d`. -/
structure Rewired (g g' : FlowGraph) (κ : InstId → InstId) : Prop where
  insts : ∀ b, g'.insts b = (g.insts b).filter (g'.isPlaced ·)
  paths : ∀ path, g'.IsPath path ↔ g.IsPath path
  phis : ∀ b d, LivePhi g' b d ↔ LivePhi g b d
  kept : ∀ d, ¬ Gone g g' d → κ d = d
  reads : ∀ b u n, g.Reachable b → u ∈ g'.insts b ∨ LivePhi g' b u → g.nodes[u.index]? = some n →
    ∃ n', g'.nodes[u.index]? = some n' ∧ n'.inst = n.inst.mapArgs fun _ => κ

/-- Sharing takes out instructions and lets others stand in for them. On every path to the place where one was, or to
something that read it, the one in its place has the key that it would have, has been evaluated, and has not had an
input evaluated since. So it holds the value that the other one would have, wherever keys determine values, and keeps it
on the way to what reads it. -/
theorem shareValues_keeps_values (hg : Definite g) (hcurrent : g.Current)
    (hrun : shareValues.run g = .ok (changed, g')) : ∃ κ, Rewired g g' κ ∧ ∀ path front i, g.IsPath path →
    Concerns g i path front → Gone g g' i →
      ∃ n m key, g.nodes[i.index]? = some n ∧ g'.nodes[(κ i).index]? = some m ∧
        (Keyed (n.inst.mapArgs fun _ => κ) key ∧ Keyed m.inst key) ∧
        Fresh g' (κ i) (g'.arrived path ++ front.filter (g'.isPlaced ·)) ∧
        ((∃ back, g.insts (path.headD graphEntry) = front ++ i :: back) ∨
          Unchanged g' i (κ i) (g.arrived path ++ front)) ∧
        ∀ (M : Type) (meaning : Meaning M) result (s : State M), Determined meaning result →
          Follows g' meaning path (front.filter (g'.isPlaced ·)) s → n.inst.isDefinition = true →
          ∃ v, s.values (κ i) = some v ∧ result key (key.args.map s.values) = some v ∧
            ∀ r μ, meaning.does s.values s.memory i (n.inst.mapArgs fun _ => κ) r μ → r = some v := by
  obtain ⟨κ, hw⟩ := (shareValues_of_ok hg hcurrent.exactDominators).post_of_ok hrun
  refine ⟨κ, ⟨hw.outline.insts, fun _ => hw.isPath_iff hg, fun b => (hw.live_eq b).2, fun d hd =>
    (hw.kept d).resolve_left hd, fun b u n => hw.kept_of_placed⟩, fun path front i hpath hconcerns hi => ?_⟩
  obtain ⟨-, hnot, hreplaces⟩ := hw.shared i hi
  obtain ⟨c, hc, he⟩ := hreplaces.placed
  obtain ⟨n, m, key, hn, hm, hkey, hmkey⟩ := hreplaces.keys
  have hfresh := hw.fresh hg hpath hconcerns hi
  refine ⟨n, m, key, hn, hm, ⟨hkey, hmkey⟩, hfresh, hw.unchanged hg hpath hconcerns hi,
    fun M meaning result s hdetermined hs hdef => ?_⟩
  have hopcode : m.inst.opcode = n.inst.opcode := by
    rw [← (Inst.valueKey_eq_ok.mp hmkey.key).2.1, (Inst.valueKey_eq_ok.mp hkey.key).2.1, Inst.opcode_mapArgs]
  obtain ⟨v, hvalue, hresult⟩ := value_of_fresh (hw.traceable hg) hdetermined hs hm hmkey
    (by unfold Inst.isDefinition at hdef ⊢; rwa [hopcode]) (fun b h => hg.not_mem_live he ((hw.live_eq b).1 ▸ h))
    (hw.not_self_input hg hc he hnot hm) hfresh
  exact ⟨v, hvalue, hresult, fun r μ hdoes => (hdetermined _ _ _ _ _ _ _ hkey hdoes).trans hresult⟩

/-- Adds small integers, and does not go on behind anything else that depends on its inputs only. -/
def sum (key : ValueKey) (values : List (Option Value)) : Option Value :=
  match key.mark, values with
  | .op .add _, [some l, some r] => (l.smi?).bind fun x => (r.smi?).map fun y => .smi (x + y)
  | _, _ => none

/-- Whatever memory does not affect adds its inputs. -/
def summing : Meaning Unit where
  does σ _ _ d r _ := ∀ key, Keyed d key → r = sum key (key.args.map σ)
  goes _ _ _ _ := True

theorem determined_summing : Determined summing sum := fun _ _ _ _ _ _ key hkey hdoes => hdoes key hkey

def summingEvaluator (g : FlowGraph) : Evaluator g summing where
  run σ μ d := match d.valueKey with
    | .ok key => some (sum key (key.args.map σ), μ)
    | .error _ => none
  does := by
    intro σ μ i d r μ' _ hrun key hkey
    rw [hkey.key] at hrun
    exact (Prod.mk.inj (Option.some_inj.mp hrun)).1.symm
  jumps _ := ⟨fun _ hkey => absurd hkey.continues (by simp [Inst.isTerminator, Inst.opcode, Opcode.isTerminator]),
    trivial⟩
  branches _ _ :=
    ⟨fun _ hkey => absurd hkey.continues (by simp [Inst.isTerminator, Inst.opcode, Opcode.isTerminator]), trivial⟩

/-- Adds the two parameters, compares the sum to the first one, and adds them again on one side. -/
def sumTwice : List Command :=
  [.targetBlock, .targetBlock,
    .inst (.loadLocal 0), .inst (.loadLocal 1), .inst (.smiOp .add ⟨0⟩ ⟨1⟩), .inst (.loadLocal 0),
    .inst (.branch (.relational .lt ⟨2⟩ ⟨3⟩ none) ⟨3⟩ ⟨2⟩),
    .appendTo ⟨2⟩, .inst (.loadLocal 0), .inst (.loadLocal 1), .inst (.smiOp .add ⟨5⟩ ⟨6⟩), .inst (.unary .ret ⟨7⟩),
    .appendTo ⟨3⟩, .inst (.loadLocal 0), .inst (.unary .ret ⟨9⟩)]

/-- An execution of the graph up to the second block. -/
def sumTwiceRun (g : FlowGraph) : Option (State Unit) :=
  (summingEvaluator g).after? 3 (startState g (fun k => .smi (k + 3)) ())

def sumTwiceHolds (r : FlowGraph) : Bool :=
  match Ssa.construct.run r with
  | .ok (.ok (), g) =>
    match shareValues.run g with
    | .ok (_, g') => decide (DefiniteSeen g ∧ g.Current) && g.insts ⟨2⟩ == [⟨7⟩, ⟨8⟩] && !g'.isPlaced ⟨7⟩ &&
      ((g.nodes[7]?).any (·.inst.isDefinition)) && ((g.nodes[8]?).any (·.inst.args == [⟨7⟩])) &&
      ((g'.nodes[8]?).any (·.inst.args == [⟨2⟩])) &&
      (g'.initialDefinitions.all fun d => (g'.nodes[d.index]?).isSome) &&
      (sumTwiceRun g').any fun s => s.block == ⟨2⟩ && s.rest == [⟨8⟩] && (s.values ⟨2⟩).bind Value.smi? == some 7
    | _ => false
  | _ => false

/-- The second addition gives way to the first one, which holds the sum. -/
theorem sumTwice_kept : ∃ g g' path s, Definite g ∧ g.Current ∧ (∃ changed, shareValues.run g = .ok (changed, g')) ∧
    Gone g g' ⟨7⟩ ∧ Fresh g' ⟨2⟩ (g'.arrived path) ∧ Follows g' summing path [] s ∧ s.block = ⟨2⟩ ∧
    ∃ v key, s.values ⟨2⟩ = some v ∧ sum key (key.args.map s.values) = some v ∧ v.smi? = some 7 := by
  have hcompute : ((Command.script sumTwice normalEntry (FlowGraph.new "f" 2 0)).map (sumTwiceHolds ·.2)) =
    some true := by
    decide +kernel
  obtain ⟨⟨b₀, r⟩, hscript, hholds⟩ := Option.map_eq_some_iff.mp hcompute
  unfold sumTwiceHolds at hholds
  split at hholds
  case h_2 => cases hholds
  case h_1 g hg =>
    split at hholds
    case h_2 => cases hholds
    case h_1 changed g' hg' =>
      simp only [Bool.and_eq_true, beq_iff_eq, decide_eq_true_eq, List.all_eq_true, Bool.not_eq_true',
        Option.any_eq_true] at hholds
      obtain ⟨⟨⟨⟨⟨⟨⟨⟨hseen, hcurrent⟩, hinsts⟩, hgone⟩, n, hn, hdef⟩, u, hu, hread⟩, u', hu', hread'⟩, hinitial⟩, s, hs,
        ⟨hblock, hrest⟩, hseven⟩ := hholds
      have hd := hseen.definite
      obtain ⟨κ, hrewired, hall⟩ := shareValues_keeps_values hd hcurrent hg'
      have hgone : Gone g g' ⟨7⟩ := ⟨⟨⟨2⟩, by simp [hinsts]⟩, hgone⟩
      obtain ⟨path, front, hfollows⟩ :=
        Follows.of_reaches (⟨_, start_startState hinitial, Evaluator.steps_of_after hs⟩ : Reaches g' summing s)
      obtain ⟨κ', hw⟩ := (shareValues_of_ok hd hcurrent.exactDominators).post_of_ok hg'
      obtain ⟨hpath, hhead, hsplit⟩ := hfollows.sound (hw.traceable hd)
      rw [hblock] at hhead
      rw [hblock, hrest] at hsplit
      have hpath := (hrewired.paths path).mp hpath
      -- Nothing is in front of the return any more.
      have hfront : front = [] := by
        have hlen := congrArg List.length hsplit
        rw [hrewired.insts, hinsts, List.filter_cons_of_neg (by simp [hgone.2])] at hlen
        have hle := List.length_filter_le (g'.isPlaced ·) [(⟨8⟩ : InstId)]
        simp only [List.length_append, List.length_cons, List.length_nil] at hlen hle
        exact List.eq_nil_of_length_eq_zero (by omega)
      subst hfront
      obtain ⟨v, hv, hargs⟩ := hrewired.reads ⟨2⟩ ⟨8⟩ u (hhead ▸ hpath.reachable) (.inl (by rw [hsplit]; simp)) hu
      obtain rfl := Option.some_inj.mp (hu'.symm.trans hv)
      rw [hargs, Inst.args_mapArgs_const, hread] at hread'
      have hκ : κ ⟨7⟩ = ⟨2⟩ := by simpa using hread'
      obtain ⟨n', m, key, hn', -, -, hfresh, -, hvalues⟩ :=
        hall path [] ⟨7⟩ hpath (.position (by rw [← hhead, hinsts]; rfl)) hgone
      obtain rfl := Option.some_inj.mp (hn.symm.trans hn')
      obtain ⟨v, hv, hresult, -⟩ := hvalues Unit summing sum s determined_summing hfollows hdef
      rw [hκ] at hfresh hv
      rw [hv, Option.bind_some] at hseven
      exact ⟨g, g', path, s, hd, hcurrent, ⟨changed, hg'⟩, hgone, by simpa using hfresh, hfollows, hblock, v, key, hv,
        hresult, hseven⟩

end Midend.Sharing
