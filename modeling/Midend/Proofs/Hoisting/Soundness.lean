import Midend.Proofs.Builder
import Midend.Proofs.Execution.Runs
import Midend.Proofs.Hoisting.Walk

/-! # Hoisting keeps values

Where an instruction was, control has come by way of the place where it is now. What it reads has not been evaluated
since, and nothing has written memory if it reads memory. So it holds the value that it would get.
-/

namespace Midend.Hoisting

open Midend.Flow FlowGraph Execution

variable {g t g' : FlowGraph} {loops : BlockId → Block → Option (List Nat)} {a b c p : BlockId} {i x : InstId}
    {n : Node}
  {path : List BlockId} {front back : List InstId} {changed : Bool}

structure MovedTo (g g' : FlowGraph) (i : InstId) (b p : BlockId) : Prop where
  old : i ∈ g.insts b
  new : i ∈ g'.insts p
  ne : p ≠ b

def remaining (g : FlowGraph) (b : BlockId) (is : List InstId) : List InstId :=
  is.filter (g.layout.home? · = some b)

/-- `i`, which is the instruction `d`, has been evaluated. No input with a value has been evaluated since, and if `d` is
a load of something mutable, nothing that writes memory has. -/
def Lasting (g : FlowGraph) (i : InstId) (d : Inst) (trace : List InstId) : Prop :=
  ∃ pre post, trace = pre ++ i :: post ∧ i ∉ post ∧ (∀ x ∈ d.args, x ∉ post ∨ EndsBlock g x) ∧
    (d.isMutableLoad = true → Silent g post)

/-! ## Since the new place -/

namespace Carried

variable (hg : Definite g) (h : Carried g loops t)

include h

theorem exists_home (hx : x ∈ t.insts c) : ∃ b, x ∈ g.insts b ∧ g.Dominates c b :=
  h.hoisted.home x c (h.hoisted.sound.mem_iff.mp hx)

theorem silent_iff {es : List InstId} : Silent t es ↔ Silent g es := by
  refine forall₂_congr fun x _ => ⟨fun hsilent n hn => ?_, fun hsilent n' hn' => ?_⟩
  · obtain ⟨n', hn', ⟨f, hf⟩, -⟩ := h.exists_node hn
    rw [← hsilent n' hn', hf, Inst.hasSideEffect_mapArgs]
  · obtain ⟨n, hn, ⟨f, hf⟩, -⟩ := h.node_of hn'
    rw [hf, Inst.hasSideEffect_mapArgs, hsilent n hn]

include hg

theorem block_unique (ha : g.Reachable a) (hc : g.Reachable c) (hxa : x ∈ g.live a ∨ t.layout.home? x = some a)
    (hxc : x ∈ t.live c ∨ x ∈ t.insts c) : a = c := by
  rw [(h.live_eq c).1] at hxc
  obtain hxa | hxa := hxa <;> obtain hxc | hxc := hxc
  · exact hg.home_unique ha hc (.inr hxa) (.inr hxc)
  · obtain ⟨b, hb, -⟩ := h.exists_home hxc
    exact absurd hxa (hg.not_mem_live hb)
  · obtain ⟨b, hb, -⟩ := h.hoisted.home x a hxa
    exact absurd hxc (hg.not_mem_live hb)
  · exact Option.some_inj.mp (hxa.symm.trans (h.hoisted.sound.mem_iff.mp hxc))

theorem not_since (hpath : g.IsPath path) (hdom : g.Dominates p (path.headD graphEntry))
    (hsplit : t.insts p = front ++ i :: back) (hx : Before g t.layout x i p) :
    x ∉ back ∧ ∀ c, Behind p c path → x ∉ t.live c ∧ x ∉ t.insts c := by
  have hp : g.Reachable p := hdom.reachable hpath.reachable
  have hnodup : (front ++ i :: back).Nodup := hsplit ▸ h.hoisted.sound.nodup p
  have hback (hmem : x ∈ back) : t.layout.home? x = some p :=
    h.hoisted.sound.mem_iff.mp (show x ∈ t.insts p by simp [hsplit, hmem])
  -- A block from which control comes to `p` is not between `p` and where control is.
  have hup (c : BlockId) (hbehind : Behind p c path) (hcp : g.Dominates c p) (hxc : x ∈ t.live c ∨ x ∈ t.insts c) :
    False := by
    obtain ⟨front', back', rfl, hnot⟩ := hbehind
    refine hpath.not_dominates_of_behind hnot hdom ?_ hcp
    rintro rfl
    rw [(h.live_eq graphEntry).1, hg.phisApart.entry, show t.insts graphEntry = [] from h.hoisted.entry] at hxc
    simp at hxc
  have hreach (c : BlockId) (hbehind : Behind p c path) : g.Reachable c := by
    obtain ⟨front', back', rfl, -⟩ := hbehind
    exact hpath.drop.reachable
  cases hx with
  | initial hx =>
    refine ⟨fun hmem => ?_, fun c _ => ⟨fun hxc => ?_, fun hxc => ?_⟩⟩
    · obtain ⟨b, hb, -⟩ := h.hoisted.home x p (hback hmem)
      exact hg.not_initial hb hx
    · exact hg.not_initial_of_home (.inr ((h.live_eq c).1 ▸ hxc)) hx
    · obtain ⟨b, hb, -⟩ := h.exists_home hxc
      exact hg.not_initial hb hx
  | @live a hx hap =>
    refine ⟨fun hmem => ?_, fun c hbehind => not_or.mp fun hxc => ?_⟩
    · obtain ⟨b, hb, -⟩ := h.hoisted.home x p (hback hmem)
      exact hg.not_mem_live hb hx
    · obtain rfl := h.block_unique hg (hap.reachable hp) (hreach c hbehind) (.inl hx) hxc
      exact hup a hbehind hap hxc
  | @above a hx hne hap =>
    refine ⟨fun hmem => hne (Option.some_inj.mp (hx.symm.trans (hback hmem))), fun c hbehind => not_or.mp fun hxc => ?_⟩
    obtain rfl := h.block_unique hg (hap.reachable hp) (hreach c hbehind) (.inr hx) hxc
    exact hup a hbehind hap hxc
  | ahead hx =>
    have hxp : x ∈ t.insts p := hx.subset List.mem_cons_self
    have hfront : x ∈ front := Layout.mem_of_sublist_ahead hnodup (hsplit ▸ hx)
    refine ⟨fun hmem => (List.nodup_append.mp hnodup).2.2 x hfront x (List.mem_cons_of_mem i hmem) rfl,
      fun c hbehind => not_or.mp fun hxc => ?_⟩
    obtain rfl := h.block_unique hg hp (hreach c hbehind) (.inr (h.hoisted.sound.mem_iff.mp hxp)) hxc
    obtain ⟨front', back', -, hnot⟩ := hbehind
    simp at hnot
  | gone hplaced hx =>
    refine ⟨fun hmem => ?_, fun c _ => ⟨fun hxc => ?_, fun hxc => ?_⟩⟩
    · rw [hback hmem] at hx
      cases hx
    · exact hg.not_mem_live hplaced ((h.live_eq c).1 ▸ hxc)
    · rw [h.hoisted.sound.mem_iff.mp hxc] at hx
      cases hx

omit hg in
theorem silent_since (hpath : g.IsPath (b :: path)) (hmoved : MovedTo g t i b p) (hn : g.nodes[i.index]? = some n)
    (hload : n.inst.isMutableLoad = true) (hsplit : t.insts p = front ++ i :: back) {post : List InstId}
    (hsince : ∀ x ∈ post, x ∈ back ∨ ∃ c, Behind p c (b :: path) ∧ (x ∈ t.live c ∨ x ∈ t.insts c)) : Silent g post := by
  have hhome : t.layout.home? i = some p := h.hoisted.sound.mem_iff.mp hmoved.new
  intro x hx
  obtain hback | ⟨c, hbehind, hlive | hplaced⟩ := hsince x hx
  · refine h.hoisted.behind i n b p hn hload hmoved.old hhome hmoved.ne x ?_ x List.mem_cons_self
    rw [show t.layout.insts p = _ from hsplit]
    exact ((List.singleton_sublist.mpr hback).cons_cons i).trans (List.sublist_append_right front _)
  · intro m hm
    obtain ⟨-, -, hphi⟩ := live_iff.mp ((h.live_eq c).1 ▸ hlive)
    obtain ⟨m', hm', halive⟩ := Definite.exists_alive hphi
    obtain rfl := Option.some_inj.mp (hm.symm.trans hm')
    obtain ⟨slot, as, r, heq⟩ := Inst.eq_phi_of_isAlivePhi halive
    rw [heq]
    rfl
  · exact h.hoisted.between i n b p hn hload hmoved.old hhome path c hpath hbehind x hplaced

theorem dominates_of_moved (hmoved : MovedTo g t i b p) : g.Dominates p b := by
  obtain ⟨b', hb', hdom⟩ := h.exists_home hmoved.new
  exact hg.block_unique hb' hmoved.old ▸ hdom

theorem mem_path (hpath : g.IsPath (b :: path)) (hmoved : MovedTo g t i b p) : p ∈ path := by
  have hmem := h.dominates_of_moved hg hmoved _ hpath rfl
  have hentry : p ≠ graphEntry := by
    rintro rfl
    have hnew := hmoved.new
    rw [show t.insts graphEntry = [] from h.hoisted.entry] at hnew
    cases hnew
  simpa [hmoved.ne, hentry] using hmem

theorem once (hmoved : MovedTo g t i b p) (hsplit : t.insts p = front ++ i :: back) : Once t p front i back where
  split := hsplit
  not_back hmem := by
    have hnodup : (front ++ i :: back).Nodup := hsplit ▸ h.hoisted.sound.nodup p
    exact (List.nodup_cons.mp (List.nodup_append.mp hnodup).2.1).1 hmem
  elsewhere c hc :=
    Option.some_inj.mp ((h.hoisted.sound.mem_iff.mp hc).symm.trans (h.hoisted.sound.mem_iff.mp hmoved.new))
  not_live c := (h.live_eq c).1 ▸ hg.not_mem_live hmoved.old

theorem lasting (hpath : g.IsPath (b :: path)) (hmoved : MovedTo g t i b p) (hn : g.nodes[i.index]? = some n)
    (hdef : n.inst.isDefinition = true) {here : List InstId} (hhere : here ⊆ t.insts b) :
    Lasting t i n.inst (t.arrived (b :: path) ++ here) := by
  obtain ⟨front, back, hsplit⟩ := List.append_of_mem hmoved.new
  have hdom := h.dominates_of_moved hg hmoved
  obtain ⟨pre, post, htrace, hpost, hsince⟩ :=
    (h.once hg hmoved hsplit).exists_latest_before (h.mem_path hg hpath hmoved) hmoved.ne.symm hhere
  refine ⟨pre, post, htrace, hpost, fun x hx => ?_, fun hload => ?_⟩
  · have hlt := hg.lt_size_of_evaluates (hg.evaluates_input hpath.reachable (.inl hmoved.old) hn hx)
    have hm : g.nodes[x.index]? = some g.nodes[x.index] := Array.getElem?_eq_getElem hlt
    cases hterm : g.nodes[x.index].inst.isTerminator with
    | true =>
      obtain ⟨m', hm', ⟨f, hf⟩, -⟩ := h.exists_node hm
      exact .inr ⟨m', hm', by rw [hf, Inst.isTerminator_mapArgs, hterm]⟩
    | false =>
      have hbefore := h.hoisted.inputs i n p hn hdef (h.hoisted.sound.mem_iff.mp hmoved.new)
        (hdom.reachable hpath.reachable) x hx _ hm hterm
      obtain ⟨hback, hlater⟩ := h.not_since hg hpath hdom hsplit hbefore
      refine .inl fun hmem => ?_
      obtain hmem | ⟨c, hbehind, hmem⟩ := hsince x hmem
      · exact hback hmem
      · exact not_or.mpr (hlater c hbehind) hmem
  · exact h.silent_iff.mpr (h.silent_since hpath hmoved hn hload hsplit hsince)

theorem reachable_iff : t.Reachable b ↔ g.Reachable b := by
  constructor <;> intro hb <;> obtain ⟨path, hpath, rfl⟩ := exists_path_of_reachable hb
  · exact ((h.isPath_iff hg).mp hpath).reachable
  · exact ((h.isPath_iff hg).mpr hpath).reachable

theorem traceable : Traceable t where
  entry := h.hoisted.entry
  ended c front j rest m hc hsplit hm hsucc := by
    obtain ⟨n, hn, ⟨f, hf⟩, -⟩ := h.node_of hm
    have hjumps : Jumps g j := ⟨n, hn, by rwa [hf, Inst.successors_mapArgs] at hsucc⟩
    obtain ⟨front', hlast⟩ :=
      h.hoisted.last c j ((h.reachable_iff hg).mp hc) hjumps (show j ∈ t.insts c by simp [hsplit])
    have hnodup : (front ++ j :: rest).Nodup := hsplit ▸ h.hoisted.sound.nodup c
    exact eq_nil_of_concat (hlast.symm.trans hsplit) (List.nodup_cons.mp (List.nodup_append.mp hnodup).2.1).1
  live c d hc hphi := by
    rw [(h.live_eq c).1]
    exact hg.live_of_livePhi ((h.reachable_iff hg).mp hc) (((h.live_eq c).2 d).mp hphi)

end Carried

/-! ## Values -/

/-- Something that may be moved does the same again with the same inputs and, if it is a load of something mutable, the
same memory. -/
def Repeats {M : Type} (m : Meaning M) : Prop :=
  ∀ σ σ' μ μ' i d r r' ν ν', Movable d → (∀ x ∈ d.args, σ x = σ' x) → (d.isMutableLoad = true → μ = μ') →
    m.does σ μ i d r ν → m.does σ' μ' i d r' ν' → r = r'

theorem value_of_lasting {M : Type} {m : Meaning M} {s : State M} (ht : Traceable g) (hquiet : Quiet m)
    (hrepeats : Repeats m) (hs : Follows g m path front s) (hn : g.nodes[i.index]? = some n)
    (hdef : n.inst.isDefinition = true) (hmov : Movable n.inst) (hlive : ∀ b, i ∉ g.live b) (hself : i ∉ n.inst.args)
    (hlasting : Lasting g i n.inst (g.arrived path ++ front)) :
    ∃ v, s.values i = some v ∧ ∀ r μ, m.does s.values s.memory i n.inst r μ → r = some v := by
  obtain ⟨pre, post, htrace, hpost, hinputs, hsilent⟩ := hlasting
  obtain ⟨σ, μ, v, μ', hdoes, hvalue, hsame, hmemory⟩ := hs.kept ht hn hdef hlive htrace hpost
  obtain rfl : μ' = μ := hquiet _ _ _ _ _ _ hmov.2.1 hdoes
  refine ⟨v, hvalue, fun r ν hagain => ?_⟩
  refine hrepeats _ _ _ _ _ _ _ _ _ _ hmov (fun x hx => ?_) (fun hload => hmemory hquiet (hsilent hload)) hagain hdoes
  refine hsame x ?_ (hinputs x hx)
  rintro rfl
  exact hself hx

/-- Hoisting moves instructions to blocks that lead into loops. Every path to the place where one was has been at the
place where it is now. Since it was evaluated there, no input has been evaluated again, and if it is a load of something
mutable, nothing that writes memory has been executed. So it holds the value that it would get at its old place. -/
theorem hoistInvariants_keeps_values (hg : Definite g) (hcurrent : g.Current)
    (hrun : hoistInvariants.run g = .ok (changed, g')) :
    (∀ path, g'.IsPath path ↔ g.IsPath path) ∧
    ∀ i b p n, MovedTo g g' i b p → g.nodes[i.index]? = some n → n.inst.isDefinition = true →
      (∃ header, g.preHeader? header = .ok (some p) ∧ g.Dominates header b) ∧
      (∃ n', g'.nodes[i.index]? = some n' ∧ n'.inst = n.inst) ∧
      ∀ path front back, g.IsPath (b :: path) → g.insts b = front ++ i :: back →
        p ∈ path ∧ remaining g' b front <+: g'.insts b ∧
        Lasting g' i n.inst (g'.arrived (b :: path) ++ remaining g' b front) ∧
        ∀ (M : Type) (m : Meaning M) (s : State M), Quiet m → Repeats m →
          Follows g' m (b :: path) (remaining g' b front) s →
          ∃ v, s.values i = some v ∧ ∀ r μ, m.does s.values s.memory i n.inst r μ → r = some v := by
  obtain ⟨loops, h⟩ := (hoistInvariants_of_ok hg hcurrent).post_of_ok hrun
  refine ⟨fun _ => h.isPath_iff hg, fun i b p n hmoved hn hdef => ?_⟩
  obtain ⟨-, hmov, hheader⟩ :=
    h.hoisted.moved i n b p hn hmoved.old (h.hoisted.sound.mem_iff.mp hmoved.new) hmoved.ne
  obtain ⟨n', hn', -, hsame⟩ := h.exists_node hn
  have hsame := hsame hdef
  refine ⟨hheader, ⟨n', hn', hsame⟩, fun path front back hpath hsplit => ?_⟩
  have hb : g.Reachable b := hpath.reachable
  have hstart : remaining g' b front <+: g'.insts b := h.hoisted.front b front i back hb hsplit
  have hlasting := h.lasting hg hpath hmoved hn hdef hstart.subset
  refine ⟨h.mem_path hg hpath hmoved, hstart, hlasting, fun M m s hquiet hrepeats hs => ?_⟩
  rw [← hsame] at hlasting hmov hdef ⊢
  refine value_of_lasting (h.traceable hg) hquiet hrepeats hs hn' hdef hmov (fun c => ?_) (fun hself => ?_) hlasting
  · exact (h.live_eq c).1 ▸ hg.not_mem_live hmoved.old
  · obtain hinitial | hprecedes := hg.precedes_input hb hmoved.old hn (hsame ▸ hself)
    · exact hg.not_initial hmoved.old hinitial
    · exact hg.not_precedes_self hprecedes

def loaded (σ : Values) (μ : Memory) : Inst → Option Value
  | .loadField offset _ _ false a => (σ a).map fun o => μ.field o offset
  | _ => none

/-- Nothing writes memory, and nothing but loads of something mutable gives a value. -/
def reading : Meaning Memory where
  does σ μ _ d r μ' := r = loaded σ μ d ∧ μ' = μ
  goes _ _ _ _ := True

theorem quiet_reading : Quiet reading := fun _ _ _ _ _ _ _ hdoes => hdoes.2

theorem repeats_reading : Repeats reading := by
  rintro σ σ' μ μ' i d _ _ _ _ - hargs hmemory ⟨rfl, -⟩ ⟨rfl, -⟩
  unfold loaded
  split
  case h_1 offset _ _ a => rw [hargs a List.mem_cons_self, hmemory rfl]
  case h_2 => rfl

def readingEvaluator (g : FlowGraph) : Evaluator g reading where
  run σ μ d := some (loaded σ μ d, μ)
  does _ hrun := by
    obtain ⟨rfl, rfl⟩ := Prod.mk.inj (Option.some_inj.mp hrun)
    exact ⟨rfl, rfl⟩
  jumps _ := ⟨⟨rfl, rfl⟩, trivial⟩
  branches _ _ := ⟨⟨rfl, rfl⟩, trivial⟩

/-- Reads a field of the first parameter until it is not less than the second one. -/
def readUntil : List Command :=
  [.joinBlock, .targetBlock, .targetBlock, .inst (.goto ⟨2⟩),
    .appendTo ⟨2⟩, .inst (.loadLocal 0), .inst (.loadField 8 .dynamic .unknown false ⟨1⟩), .inst (.loadLocal 1),
    .inst (.branch { Comparison.relational .lt ⟨2⟩ ⟨3⟩ none with operands := .smi } ⟨3⟩ ⟨4⟩),
    .appendTo ⟨3⟩, .inst (.goto ⟨2⟩),
    .appendTo ⟨4⟩, .inst (.loadLocal 0), .inst (.unary .ret ⟨6⟩)]

/-- An execution of the graph up to the second time that it comes to the loop. -/
def readUntilRun (g : FlowGraph) : Option (State Memory) :=
  (readingEvaluator g).after? 5 (startState g (fun k => if k = 0 then .object 0 .array else .smi 7)
    { field := fun _ _ => .smi 5, element := fun _ _ => .smi 0 })

def readUntilHolds (r : FlowGraph) : Bool :=
  match Ssa.construct.run r with
  | .ok (.ok (), g) =>
    match hoistInvariants.run g with
    | .ok (_, g') => decide (DefiniteSeen g ∧ g.Current) && g.insts ⟨2⟩ == [⟨2⟩, ⟨4⟩] && g'.insts ⟨1⟩ == [⟨2⟩, ⟨0⟩] &&
      g'.insts ⟨2⟩ == [⟨4⟩] &&
      ((g.nodes[2]?).any fun n => n.inst.isDefinition && n.inst.isMutableLoad) &&
      (g'.initialDefinitions.all fun d => (g'.nodes[d.index]?).isSome) &&
      (readUntilRun g').any fun s => s.block == ⟨2⟩ && s.rest == [⟨4⟩] && (s.values ⟨2⟩).bind Value.smi? == some 5
    | _ => false
  | _ => false

/-- The field is read in front of the loop, and the load still holds what is in it when control comes back. -/
theorem readUntil_kept : ∃ g g' path s n, Definite g ∧ g.Current ∧
    (∃ changed, hoistInvariants.run g = .ok (changed, g')) ∧ MovedTo g g' ⟨2⟩ ⟨2⟩ normalEntry ∧ g.nodes[2]? = some n ∧
    n.inst.isMutableLoad = true ∧ normalEntry ∈ path ∧ Follows g' reading (⟨2⟩ :: path) [] s ∧
    Lasting g' ⟨2⟩ n.inst (g'.arrived (⟨2⟩ :: path)) ∧ ∃ v, s.values ⟨2⟩ = some v ∧
    loaded s.values s.memory n.inst = some v ∧ v.smi? = some 5 := by
  have hcompute : ((Command.script readUntil normalEntry (FlowGraph.new "f" 2 0)).map (readUntilHolds ·.2)) =
    some true := by
    decide +kernel
  obtain ⟨⟨b₀, r⟩, hscript, hholds⟩ := Option.map_eq_some_iff.mp hcompute
  unfold readUntilHolds at hholds
  split at hholds
  case h_2 => cases hholds
  case h_1 g hg =>
    split at hholds
    case h_2 => cases hholds
    case h_1 changed g' hg' =>
      simp only [Bool.and_eq_true, beq_iff_eq, decide_eq_true_eq, List.all_eq_true, Option.any_eq_true] at hholds
      obtain ⟨⟨⟨⟨⟨⟨⟨hseen, hcurrent⟩, hold⟩, hnew⟩, hleft⟩, n, hn, hdef, hload⟩, hinitial⟩, s, hs, ⟨hblock, hrest⟩,
        hfive⟩ := hholds
      have hd := hseen.definite
      obtain ⟨hpaths, hall⟩ := hoistInvariants_keeps_values hd hcurrent hg'
      have hmoved : MovedTo g g' ⟨2⟩ ⟨2⟩ normalEntry := ⟨by simp [hold], by simp [hnew, normalEntry], by decide⟩
      obtain ⟨-, -, hkept⟩ := hall ⟨2⟩ ⟨2⟩ normalEntry n hmoved hn hdef
      obtain ⟨path, front, hfollows⟩ :=
        Follows.of_reaches (⟨_, start_startState hinitial, Evaluator.steps_of_after hs⟩ : Reaches g' reading s)
      obtain ⟨loops, hcarried⟩ := (hoistInvariants_of_ok hd hcurrent).post_of_ok hg'
      obtain ⟨hpath, hhead, hsplit⟩ := hfollows.sound (hcarried.traceable hd)
      rw [hblock] at hhead
      -- Nothing is in front of the branch any more.
      have hfront : front = [] := by
        rw [hblock, hrest, hleft] at hsplit
        exact (List.append_inj' hsplit.symm rfl).1
      subst hfront
      cases path with
      | nil => cases hhead
      | cons b path =>
        obtain rfl : ⟨2⟩ = b := hhead
        obtain ⟨hmem, -, hlasting, hvalues⟩ := hkept path [] [⟨4⟩] ((hpaths _).mp hpath) hold
        obtain ⟨v, hv, hagain⟩ := hvalues Memory reading s quiet_reading repeats_reading hfollows
        rw [hv, Option.bind_some] at hfive
        exact ⟨g, g', path, s, n, hd, hcurrent, ⟨changed, hg'⟩, hmoved, hn, hload, hmem,
          hfollows, by simpa [remaining] using hlasting, v, hv, hagain _ _ ⟨rfl, rfl⟩, hfive⟩

end Midend.Hoisting
