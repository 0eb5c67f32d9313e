import Midend.Proofs.Constants.Knowledge
import Midend.Proofs.Constants.Rounds
import Midend.Proofs.Representations.Selection

/-! # Where the analysis ends is a fixpoint

Between two rounds every definition of a visited block is abreast of its inputs. Once nothing waits, what is known of it
is therefore exactly what its inputs tell, and something is known of whatever is evaluated along marked blocks.
-/

namespace Midend.Constants

open Execution Ssa FlowGraph Relation
open Representations (ReadsDefinitions predsOf_eq)

variable {g : FlowGraph} {f f' f₁ : Facts} {i d phi : InstId} {n m : Node} {e : Inst} {b c : BlockId} {x : Knowledge}

inductive Popped (f : Facts) : Facts → Prop
  | block {b : BlockId} {rest : List BlockId} (hblocks : f.blocks = b :: rest) : Popped f { f with blocks := rest }
  | definition {d : InstId} {rest : List InstId} (hblocks : f.blocks = []) (hdefs : f.definitions = d :: rest) :
      Popped f { f with definitions := rest }

theorem Popped.sound (h : Popped f f₁) (hs : Sound g f) : Sound g f₁ := by
  cases h with
  | block hblocks =>
    exact ⟨hs.entry, hs.path, fun b hb => hs.blocks b (by simp [hblocks, hb]), hs.definitions, hs.rows⟩
  | definition _ hdefs =>
    exact ⟨hs.entry, hs.path, hs.blocks, fun d hd => hs.definitions d (by simp [hdefs, hd]), hs.rows⟩

/-- What is evaluated when control comes to a block and goes through it. -/
def Homed (g : FlowGraph) (b : BlockId) (i : InstId) : Prop :=
  b = graphEntry ∧ i ∈ g.initialDefinitions ∨ i ∈ g.insts b ∨ LivePhi g b i

structure Kept (g : FlowGraph) (f : Facts) : Prop where
  sound : Sound g f
  entered : Visited f graphEntry
  abreast : ∀ b i, Visited f b → Homed g b i → Abreast g f i

section Rounds

variable (hg : Analyzable g)

include hg

theorem exists_of_homed (hb : g.Reachable b) (hi : Homed g b i) : ∃ n, g.nodes[i.index]? = some n ∧
    (∀ k a, n.inst.args[k]? = some a → g.InputHolds i k a) ∧ (n.inst.args ≠ [] → n.block = some b) ∧
    (n.inst.isPhi = true → n.block = some b ∧ LivePhi g b i) := by
  obtain ⟨rfl, hinitial⟩ | hmem | hphi := hi
  · obtain ⟨n, hn, hgiven⟩ := hg.form.initial i hinitial
    refine ⟨n, hn, ?_⟩
    obtain ⟨k, hk⟩ | ⟨k, hk⟩ := Inst.eq_of_isGiven hgiven <;> simp [hk, Inst.args, Inst.isPhi]
  · obtain ⟨n, last, hn, -, hholds⟩ := hg.definite.inst_holds hb hmem
    refine ⟨n, hn, hholds.operands.inputs, fun _ => hholds.placed, fun hphi => ?_⟩
    exact absurd (Inst.opcode_of_isPhi hphi) (hg.definite.phisApart.opcode_ne_phi hg.definite.located hmem hn)
  · obtain ⟨n, hn, -, hblock, hholds⟩ := hg.form.phi_holds hb hphi
    exact ⟨n, hn, hholds.inputs, fun _ => hblock, fun _ => ⟨hblock, hphi⟩⟩

theorem Kept.round_block (hk : Kept g f) {rest : List BlockId} (hblocks : f.blocks = b :: rest) :
    ∃ f', Evolves g { f with blocks := rest } f' ∧ round g f = .ok (some f') ∧ Kept g f' := by
  have hb : f.isReachable b = true := hk.sound.blocks b (by simp [hblocks])
  have hne : b ≠ graphEntry := fun hb => hk.entered.2 (by simp [hblocks, hb])
  have hs : Sound g { f with blocks := rest } := (Popped.block hblocks).sound hk.sound
  obtain ⟨f', hf', hevolves, hphis, hinsts⟩ := runs_visitBlock hg hs hne hb
  refine ⟨f', hevolves, ?_, hevolves.sound hg hs, ?_, fun c i hv hi => ?_⟩
  · unfold round
    rw [hblocks]
    exact bind_eq_ok.mpr ⟨_, hf', rfl⟩
  · exact (Evolves.visited_iff hevolves).mpr ⟨hk.entered.1, fun hmem => hk.entered.2 (by simp [hblocks, hmem])⟩
  have hv₁ := (Evolves.visited_iff hevolves).mp hv
  by_cases hcb : c = b
  · subst hcb
    obtain ⟨heq, -⟩ | hmem | hphi := hi
    · exact absurd heq hne
    · exact (hinsts i hmem).1
    · exact hphis i hphi
  have hc : Visited f c := ⟨hv₁.1, by simpa [hblocks, hcb] using hv₁.2⟩
  have hreach := hk.sound.reachable hc.1
  obtain ⟨n, hn, -, -, hphi⟩ := exists_of_homed hg hreach hi
  by_cases hpred : n.inst.isPhi = true ∧ b ∈ predsOf g c
  · -- The block jumps to the phi, and has brought it up.
    obtain ⟨hisPhi, hmem⟩ := hpred
    obtain ⟨-, hlive⟩ := hphi hisPhi
    obtain ⟨hrb, hedge⟩ := hg.definite.edge_of_mem_preds hreach hmem
    obtain ⟨j, m, hj, hm, hgoto⟩ := hg.form.goto_of_edge hrb hne hedge hlive.1
    exact ((hinsts j hj).2 m c hm hgoto).elim (fun hwaits => absurd hwaits hv.2) fun hall => hall i hlive
  · refine Evolves.abreast hevolves fun n' hn' hlisted => ?_
    obtain rfl := Option.some_inj.mp (hn.symm.trans hn')
    refine (hk.abreast c i hc hi n hn hlisted).imp_right (.imp_right (.imp_right ?_))
    rintro ⟨hisPhi, c', p, hc', hp, hwaits⟩
    obtain rfl := Option.some_inj.mp (hc'.symm.trans (hphi hisPhi).1)
    refine ⟨hisPhi, c', p, hc', hp, ?_⟩
    rw [hblocks] at hwaits
    exact (List.mem_cons.mp hwaits).resolve_left fun heq => hpred ⟨hisPhi, heq ▸ hp⟩

theorem Kept.round_definition (hk : Kept g f) {rest : List InstId} (hblocks : f.blocks = [])
    (hdefs : f.definitions = d :: rest) :
    ∃ f', Evolves g { f with definitions := rest } f' ∧ round g f = .ok (some f') ∧ Kept g f' := by
  have hs : Sound g { f with definitions := rest } := (Popped.definition hblocks hdefs).sound hk.sound
  obtain ⟨n, hn⟩ : ∃ n, g.nodes[d.index]? = some n :=
    ⟨_, Array.getElem?_eq_getElem (hk.sound.definitions d (by simp [hdefs]))⟩
  obtain ⟨f', hf', hevolves, husers⟩ := runs_visitUsers hg hs hn
  refine ⟨f', hevolves, ?_, hevolves.sound hg hs, (Evolves.visited_iff hevolves).mpr hk.entered, fun c i hv hi => ?_⟩
  · unfold round
    rw [hblocks] at hf' ⊢
    rw [hdefs]
    exact bind_eq_ok.mpr ⟨_, hf', rfl⟩
  have hc : Visited f c := (Evolves.visited_iff hevolves).mp hv
  obtain ⟨m, hm, hinputs, hblock, -⟩ := exists_of_homed hg (hk.sound.reachable hc.1) hi
  by_cases hd : d ∈ m.inst.args
  · obtain ⟨k, hk'⟩ := List.mem_iff_getElem?.mp hd
    obtain ⟨n', hn', huse⟩ := (hinputs k d hk').listed
    obtain rfl := Option.some_inj.mp (hn.symm.trans hn')
    exact husers _ huse m c hm (hblock (List.ne_nil_of_mem hd)) hc.1
  · refine Evolves.abreast hevolves fun m' hm' hlisted => ?_
    obtain rfl := Option.some_inj.mp (hm.symm.trans hm')
    refine (hk.abreast c i hc hi m hm hlisted).imp_right (.imp_right (.imp_left ?_))
    rintro ⟨a, ha, hwaits⟩
    rw [hdefs] at hwaits
    exact ⟨a, ha, (List.mem_cons.mp hwaits).resolve_left (ne_of_mem_of_not_mem ha hd)⟩

theorem Kept.round (hk : Kept g f) : (f.blocks = [] ∧ f.definitions = []) ∨
    ∃ f₁ f', Popped f f₁ ∧ Evolves g f₁ f' ∧ round g f = .ok (some f') ∧ Kept g f' := by
  cases hblocks : f.blocks with
  | cons b rest =>
    obtain ⟨f', h⟩ := hk.round_block hg hblocks
    exact .inr ⟨_, f', .block hblocks, h⟩
  | nil =>
    cases hdefs : f.definitions with
    | nil => exact .inl ⟨rfl, rfl⟩
    | cons d rest =>
      obtain ⟨f', h⟩ := hk.round_definition hg hblocks hdefs
      exact .inr ⟨_, f', .definition hblocks hdefs, h⟩

theorem exists_start : ∃ f₀, start g = .ok f₀ ∧ Sound g f₀ ∧ f₀.blocks = [graphEntry] ∧ f₀.definitions = [] ∧
    (∀ b, f₀.isReachable b = true ↔ b = graphEntry) ∧ ∀ d, f₀.value d = .unknown := by
  obtain ⟨r, hr⟩ : ∃ r, NumberSet.insert { rows := g.blocks.size / 64 + 1 } graphEntry.index = .ok r := by
    unfold NumberSet.insert
    rw [if_pos (by simp [graphEntry])]
    exact ⟨_, rfl⟩
  have hmarked (b : BlockId) : r.contains b.index = true ↔ b = graphEntry := by
    rw [NumberSet.contains_of_insert hr, BlockId.index_inj]
    simp [NumberSet.contains]
  refine ⟨{ reachable := r, blocks := [graphEntry] }, ?_, ⟨(hmarked _).mpr rfl, fun b hb => ?_, fun b hb => ?_,
    by simp, ?_⟩, rfl, rfl, hmarked, fun d => ?_⟩
  · unfold start NumberSet.ofCapacity NumberSet.extend
    rw [if_pos hg.room]
    exact bind_eq_ok.mpr ⟨_, rfl, bind_eq_ok.mpr ⟨r, hr, rfl⟩⟩
  · exact ⟨[], .nil, ((hmarked b).mp hb).symm, by simp⟩
  · exact (hmarked b).mpr (List.mem_singleton.mp hb)
  · unfold NumberSet.insert at hr
    rw [if_pos (by simp [graphEntry])] at hr
    rw [← pure_eq_ok.mp hr]
    exact Nat.lt_succ_self _
  · simp [Facts.value, SideTable.get?]

theorem round_start {f₀ : Facts} (hs : Sound g f₀) (hblocks : f₀.blocks = [graphEntry])
    (hmarked : ∀ b, f₀.isReachable b = true ↔ b = graphEntry) :
    ∃ f₁ f', Popped f₀ f₁ ∧ Evolves g f₁ f' ∧ round g f₀ = .ok (some f') ∧ Kept g f' := by
  have hs₁ : Sound g { f₀ with blocks := [] } := (Popped.block hblocks).sound hs
  obtain ⟨f', hf', hevolves, hinitial⟩ := runs_visitEntry hg hs₁
  refine ⟨_, f', .block hblocks, hevolves, ?_, hevolves.sound hg hs₁,
    (Evolves.visited_iff hevolves).mpr ⟨hs.entry, by simp⟩, fun c i hv hi => ?_⟩
  · unfold round
    rw [hblocks]
    exact bind_eq_ok.mpr ⟨_, hf', rfl⟩
  obtain rfl := (hmarked c).mp ((Evolves.visited_iff hevolves).mp hv).1
  obtain ⟨-, hi⟩ | hmem | hphi := hi
  · exact hinitial i hi
  · exact absurd rfl (hg.definite.ne_graphEntry hmem)
  · have hlive := hg.definite.live_of_livePhi .refl hphi
    rw [hg.definite.phisApart.entry] at hlive
    cases hlive

theorem Kept.drain (hk : Kept g f) (steps : Nat) : drain g steps f = .error .unsettled ∨
    ∃ f', Constants.drain g steps f = .ok ((), f') ∧ Kept g f' ∧ f'.blocks = [] ∧ f'.definitions = [] := by
  induction steps generalizing f with
  | zero => exact .inl rfl
  | succ steps ih =>
    obtain ⟨hblocks, hdefs⟩ | ⟨f₁, f', -, -, hround, hk'⟩ := hk.round hg
    · exact .inr ⟨f, drain_of_none steps hblocks hdefs, hk, hblocks, hdefs⟩
    · rw [drain_of_some steps hround]
      exact ih hk'

end Rounds

/-! ## What the state says once nothing waits -/

/-- Every definition in a marked block has the value that its inputs and the marks tell in the end. -/
structure IsFixpoint (g : FlowGraph) (f : Facts) : Prop where
  initial : ∀ d ∈ g.initialDefinitions, ∃ n x, g.nodes[d.index]? = some n ∧ transfer g f d n.inst = .ok (some x) ∧
    (f.value d == x) = true
  insts : ∀ b i n, f.isReachable b = true → i ∈ g.insts b → g.nodes[i.index]? = some n → n.inst.isDefinition = true →
    ∃ x, transfer g f i n.inst = .ok (some x) ∧ (f.value i == x) = true
  phis : ∀ b phi n, f.isReachable b = true → LivePhi g b phi → g.nodes[phi.index]? = some n →
    (f.value phi == phiValue f ((predsOf g b).zip n.inst.args)) = true

theorem smiOp_known {op : Token} {l r : Knowledge} (hl : l ≠ .unknown) (hr : r ≠ .unknown) :
    ∃ x, Knowledge.smiOp op l r = some x ∧ x ≠ .unknown := by
  cases l <;> cases r
  case known.known a b =>
    simp only [Knowledge.smiOp]
    split
    case h_1 v w _ _ => cases foldSmiOp op v w <;> exact ⟨_, rfl, by simp⟩
    case h_2 => exact ⟨_, rfl, by simp⟩
  all_goals first | contradiction | exact ⟨_, rfl, by simp⟩

theorem compareOrdered_known {op : Token} {l r : Knowledge} (hl : l ≠ .unknown) (hr : r ≠ .unknown) :
    Knowledge.compareOrdered op l r ≠ .unknown := by
  cases l <;> cases r
  case known.known a b =>
    simp only [Knowledge.compareOrdered]
    split
    case h_1 v w _ _ => cases compareInts op v w <;> simp [Knowledge.bool]
    case h_2 => simp
  all_goals first | contradiction | simp [Knowledge.compareOrdered]

theorem compareNull_known {k : Nat} {negate : Bool} (h : compareNull g i k negate = .ok x) : x ≠ .unknown := by
  unfold compareNull at h
  obtain ⟨cls, -, h⟩ := bind_eq_ok.mp h
  split at h <;> obtain rfl := pure_eq_ok.mp h <;> simp [Knowledge.bool]

theorem compareValue_known {cmp : Comparison} (hl : f.value cmp.left ≠ .unknown) (hr : f.value cmp.right ≠ .unknown)
    (h : compareValue g f i cmp = .ok x) : x ≠ .unknown := by
  unfold compareValue at h
  dsimp only at h
  split at h
  case isFalse =>
    obtain rfl := pure_eq_ok.mp h
    exact compareOrdered_known hl hr
  unfold compareIdentity at h
  split at h
  case h_2 | h_3 => exact compareNull_known h
  case h_6 hknown _ _ _ _ => cases hleft : f.value cmp.left <;> cases hright : f.value cmp.right <;> simp_all
  all_goals
    obtain rfl := pure_eq_ok.mp h
    simp [Knowledge.bool]

theorem transfer_known {r : Option Knowledge} (hargs : ∀ a ∈ e.args, f.value a ≠ .unknown)
    (hdef : e.isDefinition = true) (hr : transfer g f i e = .ok r) : ∃ x, r = some x ∧ x ≠ .unknown := by
  unfold transfer at hr
  split at hr
  case h_1 | h_2 | h_9 | h_10 =>
    obtain rfl := pure_eq_ok.mp hr
    exact ⟨_, rfl, by simp⟩
  case h_3 a =>
    obtain rfl := pure_eq_ok.mp hr
    exact ⟨_, rfl, hargs a (by simp [Inst.args])⟩
  case h_4 range inputs =>
    obtain ⟨a, ha, hr⟩ := bind_eq_ok.mp hr
    obtain rfl := pure_eq_ok.mp hr
    exact ⟨_, rfl, hargs a (List.mem_of_getElem? (orFault_eq_ok.mp ha))⟩
  case h_5 cmp =>
    obtain ⟨x, hx, hr⟩ := bind_eq_ok.mp hr
    obtain rfl := pure_eq_ok.mp hr
    exact ⟨x, rfl, compareValue_known (hargs _ (by simp [Inst.args])) (hargs _ (by simp [Inst.args])) hx⟩
  case h_6 op l r overflow =>
    obtain rfl := pure_eq_ok.mp hr
    exact smiOp_known (hargs l (by simp [Inst.args])) (hargs r (by simp [Inst.args]))
  case h_7 a =>
    obtain rfl := pure_eq_ok.mp hr
    have ha := hargs a (by simp [Inst.args])
    unfold Knowledge.negate
    split
    case h_1 => exact ⟨_, rfl, by simp [Knowledge.bool]⟩
    case h_2 h => exact absurd h ha
    case h_3 => exact ⟨_, rfl, by simp⟩
  case h_8 a =>
    obtain ⟨e, -, hr⟩ := bind_eq_ok.mp hr
    split at hr <;> obtain rfl := pure_eq_ok.mp hr <;> exact ⟨_, rfl, by simp⟩
  case h_11 =>
    obtain rfl := pure_eq_ok.mp hr
    have hknown : (e.args.map f.value).any (· == .unknown) = false := by
      rw [List.any_eq_false]
      intro k hk hunknown
      obtain ⟨a, ha, rfl⟩ := List.mem_map.mp hk
      exact hargs a ha (Knowledge.beq_unknown_iff.mp hunknown)
    exact ⟨.varying, by simp [unevaluated, hdef, hknown], by simp⟩

/-- If the instruction produces a value, something is known of it. -/
def Known (g : FlowGraph) (f : Facts) (d : InstId) : Prop :=
  ∀ n, g.nodes[d.index]? = some n → n.inst.isDefinition = true → f.value d ≠ .unknown

theorem marked_head (hk : Kept g f) {path : List BlockId} (h : ∀ b ∈ path, f.isReachable b = true) :
    f.isReachable (path.headD graphEntry) = true := by
  cases path with
  | nil => exact hk.sound.entry
  | cons b path => exact h b List.mem_cons_self

section Ended

variable (hg : Analyzable g) (hreads : ReadsDefinitions g) (hk : Kept g f) (hblocks : f.blocks = [])
  (hdefs : f.definitions = [])

include hg hk hblocks hdefs

theorem value_same_given (hb : f.isReachable b = true) (hi : Homed g b i) (hgiven : given g f i ≠ .unknown) :
    (f.value i == given g f i) = true := by
  obtain ⟨n, hn, hinputs, -⟩ := exists_of_homed hg (hk.sound.reachable hb) hi
  obtain hnone | hsame | ⟨a, -, hwaits⟩ | ⟨-, c, p, -, -, hwaits⟩ :=
    hk.abreast b i ⟨hb, by simp [hblocks]⟩ hi n hn (listed_of_holds hinputs)
  · exact absurd hnone hgiven
  · exact hsame
  · simp [hdefs] at hwaits
  · simp [hblocks] at hwaits

theorem value_known (hb : f.isReachable b = true) (hi : Homed g b i) (hgiven : given g f i ≠ .unknown) :
    f.value i ≠ .unknown := by
  intro hnone
  have hsame := value_same_given hg hk hblocks hdefs hb hi hgiven
  rw [hnone] at hsame
  exact hgiven (Knowledge.beq_unknown_iff.mp (Knowledge.same_symm hsame))

theorem initial_transfer (hi : d ∈ g.initialDefinitions) : ∃ n x, g.nodes[d.index]? = some n ∧
    transfer g f d n.inst = .ok (some x) ∧ x ≠ .unknown ∧ (f.value d == x) = true := by
  obtain ⟨n, hn, hgiven⟩ := hg.form.initial d hi
  obtain ⟨x, hx, hne, hphi⟩ : ∃ x, transfer g f d n.inst = .ok (some x) ∧ x ≠ .unknown ∧ n.inst.isPhi = false := by
    obtain ⟨k, hk⟩ | ⟨k, hk⟩ := Inst.eq_of_isGiven hgiven <;> rw [hk] <;> exact ⟨_, rfl, by simp, rfl⟩
  have hx' : given g f d = x := given_of_transfer hn hphi hx
  refine ⟨n, x, hn, hx, hne, ?_⟩
  rw [← hx']
  exact value_same_given hg hk hblocks hdefs hk.sound.entry (.inl ⟨rfl, hi⟩) (by rwa [hx'])

theorem initial_known (hi : d ∈ g.initialDefinitions) : Known g f d := by
  intro n hn _ hnone
  obtain ⟨m, x, -, -, hx, hsame⟩ := initial_transfer hg hk hblocks hdefs hi
  rw [hnone] at hsame
  exact hx (Knowledge.beq_unknown_iff.mp (Knowledge.same_symm hsame))

include hreads

theorem inst_transfer (hb : f.isReachable b = true) (hi : i ∈ g.insts b) (hn : g.nodes[i.index]? = some n)
    (hdef : n.inst.isDefinition = true) (hargs : ∀ a ∈ n.inst.args, Known g f a) :
    ∃ x, transfer g f i n.inst = .ok (some x) ∧ x ≠ .unknown ∧ (f.value i == x) = true := by
  obtain ⟨m, hm, hinputs, -, hphi⟩ := exists_of_homed hg (hk.sound.reachable hb) (.inr (.inl hi))
  obtain rfl := Option.some_inj.mp (hn.symm.trans hm)
  have hno : n.inst.isPhi = false := by
    by_contra hisPhi
    exact hg.definite.not_placed_of_livePhi (hphi (by simpa using hisPhi)).2 hi
  have hnodes : InputsExist g n.inst := by
    intro a ha
    obtain ⟨k, hk⟩ := List.mem_iff_getElem?.mp ha
    obtain ⟨m, hm, -⟩ := (hinputs k a hk).listed
    exact ⟨m, hm⟩
  have hvalues : ∀ a ∈ n.inst.args, f.value a ≠ .unknown := by
    intro a ha
    obtain ⟨m, hm⟩ := hnodes a ha
    exact hargs a ha m hm (hreads b i n ⟨hk.sound.reachable hb, .inl hi⟩ hn a ha m hm)
  obtain ⟨r, hr⟩ := exists_transfer hg hn hnodes
  obtain ⟨x, rfl, hx⟩ := transfer_known hvalues hdef hr
  have hgiven : given g f i = x := given_of_transfer hn hno hr
  refine ⟨x, hr, hx, ?_⟩
  rw [← hgiven]
  exact value_same_given hg hk hblocks hdefs hb (.inr (.inl hi)) (by rwa [hgiven])

theorem given_phi_known {path : List BlockId} (hpath : g.IsPath path) (hedge : g.Edge (path.headD graphEntry) b)
    (hhead : f.isReachable (path.headD graphEntry) = true) (hphi : LivePhi g b phi)
    (harrived : ∀ d ∈ g.arrived path, Known g f d) (hinsts : ∀ d ∈ g.insts (path.headD graphEntry), Known g f d) :
    given g f phi ≠ .unknown := by
  have hreach : g.Reachable b := (hk.sound.reachable hhead).tail hedge
  obtain ⟨n, hn, hisPhi, hblock, hholds⟩ := hg.form.phi_holds hreach hphi
  obtain ⟨ps, hps, hmem, hall⟩ := hg.definite.reads.edges path b hpath hedge
  obtain ⟨as, has, hinput⟩ := hall phi (hg.definite.live_of_livePhi hreach hphi)
  obtain ⟨k, hp⟩ := List.mem_iff_getElem?.mp hmem
  obtain ⟨a, ha, hwhere⟩ := hinput k hp
  obtain ⟨m, hm, rfl⟩ := args_eq_ok.mp has
  obtain rfl := Option.some_inj.mp (hn.symm.trans hm)
  have hknown : Known g f a := by
    obtain hstart | hbefore := hwhere
    · exact initial_known hg hk hblocks hdefs hstart
    · exact (List.mem_append.mp hbefore).elim (harrived a) (hinsts a)
  obtain ⟨m, hm, -⟩ := (hholds.inputs k a ha).listed
  have hvalue := hknown m hm (hreads b phi n ⟨hreach, .inr hphi⟩ hn a (List.mem_of_getElem? ha) m hm)
  have hpair : (path.headD graphEntry, a) ∈ (predsOf g b).zip n.inst.args :=
    List.mem_of_getElem? (List.getElem?_zip_eq_some.mpr ⟨predsOf_eq hps ▸ hp, ha⟩)
  rw [given_of_phi hn hisPhi hblock]
  intro hnone
  exact hvalue (Knowledge.below_unknown.mp (hnone ▸ below_phiValue hpair hhead))

theorem insts_known {path : List BlockId} (hpath : g.IsPath path) (hhead : f.isReachable (path.headD graphEntry) = true)
    (harrived : ∀ d ∈ g.arrived path, Known g f d) : ∀ d ∈ g.insts (path.headD graphEntry), Known g f d := by
  suffices h : ∀ rest front, g.insts (path.headD graphEntry) = front ++ rest → (∀ d ∈ front, Known g f d) →
      ∀ d ∈ g.insts (path.headD graphEntry), Known g f d from h _ [] rfl (by simp)
  intro rest
  induction rest with
  | nil =>
    intro front hsplit hfront d hd
    rw [hsplit, List.append_nil] at hd
    exact hfront d hd
  | cons i rest ih =>
    intro front hsplit hfront
    have hi : i ∈ g.insts (path.headD graphEntry) := hsplit ▸ List.mem_append_right _ List.mem_cons_self
    refine ih (front ++ [i]) (hsplit.trans (by simp)) fun d hd => ?_
    obtain hd | hd := List.mem_append.mp hd
    · exact hfront d hd
    obtain rfl := List.mem_singleton.mp hd
    intro n hn hdef hnone
    obtain ⟨m, hm, hinputs⟩ := hg.definite.reads.inputs path hpath (hg.definite.ne_graphEntry hi) front d rest hsplit
    obtain rfl := Option.some_inj.mp (hn.symm.trans hm)
    obtain ⟨x, -, hx, hsame⟩ := inst_transfer hg hreads hk hblocks hdefs hhead hi hn hdef fun a ha => by
      obtain hstart | hbefore := hinputs a ha
      · exact initial_known hg hk hblocks hdefs hstart
      · exact (List.mem_append.mp hbefore).elim (harrived a) (hfront a)
    rw [hnone] at hsame
    exact hx (Knowledge.beq_unknown_iff.mp (Knowledge.same_symm hsame))

theorem arrived_known {path : List BlockId} (hpath : g.IsPath path) (hmarked : ∀ b ∈ path, f.isReachable b = true) :
    ∀ d ∈ g.arrived path, Known g f d := by
  induction hpath with
  | nil => simp [arrived]
  | @cons path b hedge hpath ih =>
    obtain ⟨hb, hrest⟩ := List.forall_mem_cons.mp hmarked
    have hhead := marked_head hk hrest
    have hinsts := insts_known hg hreads hk hblocks hdefs hpath hhead (ih hrest)
    intro d hd
    rw [arrived, List.mem_append, List.mem_append] at hd
    obtain (hd | hd) | hlive := hd
    · exact ih hrest d hd
    · exact hinsts d hd
    obtain ⟨phis, hphis, hphi⟩ := live_iff.mp hlive
    have hgiven := given_phi_known hg hreads hk hblocks hdefs hpath hedge hhead hphi (ih hrest) hinsts
    exact fun _ _ _ => value_known hg hk hblocks hdefs hb (.inr (.inr hphi)) hgiven

/-- Once nothing waits, the facts are a fixpoint. -/
theorem Kept.isFixpoint : IsFixpoint g f where
  initial d hd := by
    obtain ⟨n, x, hn, hx, -, hsame⟩ := initial_transfer hg hk hblocks hdefs hd
    exact ⟨n, x, hn, hx, hsame⟩
  insts b i n hb hi hn hdef := by
    obtain ⟨path, hpath, rfl, hmarked⟩ := hk.sound.path b hb
    have harrived := arrived_known hg hreads hk hblocks hdefs hpath hmarked
    have hinsts := insts_known hg hreads hk hblocks hdefs hpath hb harrived
    obtain ⟨front, back, hsplit⟩ := List.append_of_mem hi
    obtain ⟨m, hm, hinputs⟩ := hg.definite.reads.inputs path hpath (hg.definite.ne_graphEntry hi) front i back hsplit
    obtain rfl := Option.some_inj.mp (hn.symm.trans hm)
    obtain ⟨x, hx, -, hsame⟩ := inst_transfer hg hreads hk hblocks hdefs hb hi hn hdef fun a ha => by
      obtain hstart | hbefore := hinputs a ha
      · exact initial_known hg hk hblocks hdefs hstart
      · refine (List.mem_append.mp hbefore).elim (harrived a) fun h => hinsts a ?_
        rw [hsplit]
        exact List.mem_append_left _ h
    exact ⟨x, hx, hsame⟩
  phis b phi n hb hphi hn := by
    obtain ⟨m, hm, hisPhi, hblock, -⟩ := hg.form.phi_holds (hk.sound.reachable hb) hphi
    obtain rfl := Option.some_inj.mp (hn.symm.trans hm)
    rw [← given_of_phi hn hisPhi hblock]
    refine value_same_given hg hk hblocks hdefs hb (.inr (.inr hphi)) ?_
    obtain ⟨path, hpath, rfl, hmarked⟩ := hk.sound.path b hb
    cases hpath with
    | nil =>
      have hlive := hg.definite.live_of_livePhi .refl hphi
      rw [hg.definite.phisApart.entry] at hlive
      cases hlive
    | @cons path b hedge hpath =>
      obtain ⟨-, hrest⟩ := List.forall_mem_cons.mp hmarked
      have hhead := marked_head hk hrest
      have harrived := arrived_known hg hreads hk hblocks hdefs hpath hrest
      have hinsts := insts_known hg hreads hk hblocks hdefs hpath hhead harrived
      exact given_phi_known hg hreads hk hblocks hdefs hpath hedge hhead hphi harrived hinsts

end Ended

end Midend.Constants
