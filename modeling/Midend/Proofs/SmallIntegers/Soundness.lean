import Midend.Proofs.Execution.Runs
import Midend.Proofs.SmallIntegers.Phis

/-! # Small integers at run time

Executions in which failed checks leave the method, of a graph whose recorded classes are right, find nothing but small
integers in what the propagation has recorded as one.
-/

namespace Midend.SmallIntegers

open Midend.Flow FlowGraph Ssa Execution Classes

variable {M : Type} {m : Meaning M} {g g' : FlowGraph} {s s' : State M} {path : List BlockId} {front rest : List InstId}
  {b : BlockId} {d i x last : InstId} {n : Node} {v : Value}

/-! ## Executions of the changed graph -/

/-- Nothing that executions depend on is different. -/
structure SameCode (g g' : FlowGraph) : Prop where
  insts : ∀ i : InstId, (g'.nodes[i.index]?).map Node.inst = (g.nodes[i.index]?).map Node.inst
  blocks : g'.blocks = g.blocks
  layout : g'.layout = g.layout
  catchEntries : g'.catchEntries = g.catchEntries
  initial : g'.initialDefinitions = g.initialDefinitions

namespace SameCode

theorem of_only {reaching : List (Use × ClassId)} (honly : OnlyClasses { g with reaching } g') : SameCode g g' := by
  obtain ⟨κ, rfl⟩ := honly
  refine ⟨fun i => ?_, rfl, rfl, rfl, rfl⟩
  rw [nodes_mapNodes, Option.map_map]
  rfl

variable (hsame : SameCode g g')

include hsame

theorem exists_node (hn : g'.nodes[i.index]? = some n) : ∃ n₀, g.nodes[i.index]? = some n₀ ∧ n₀.inst = n.inst := by
  have hi := hsame.insts i
  rw [hn] at hi
  exact Option.map_eq_some_iff.mp hi.symm

theorem map_inst {β : Type} (f : Inst → β) (i : InstId) :
    (g'.nodes[i.index]?).map (f ·.inst) = (g.nodes[i.index]?).map (f ·.inst) := by
  have hi := congrArg (Option.map f) (hsame.insts i)
  rwa [Option.map_map, Option.map_map] at hi

theorem inputOf_eq (k : Nat) : inputOf g' x k = inputOf g x k := by
  have hx := congrArg (Option.bind · fun d => d.args[k]?) (hsame.insts x)
  simp only [Option.bind_map] at hx
  exact hx

theorem crosses {b c : BlockId} {σ σ' : Execution.Values} (h : Crosses g' b c σ σ') : Crosses g b c σ σ' := by
  have hlive (d : InstId) : LivePhi g' c d ↔ LivePhi g c d :=
    (live_congr (by rw [hsame.blocks]) fun i => hsame.map_inst Inst.isAlivePhi i).2 d
  obtain ⟨k, hk, hall⟩ := h
  refine ⟨k, by rwa [predsOf, ← hsame.blocks], fun d =>
    ⟨fun hphi => ?_, fun hphi => (hall d).2 fun h => hphi ((hlive d).mp h)⟩⟩
  obtain ⟨a, v, ha, hv⟩ := (hall d).1 ((hlive d).mpr hphi)
  exact ⟨a, v, hsame.inputOf_eq k ▸ ha, hv⟩

theorem step (hstep : Step g' m s s') : Step g m s s' := by
  have hinsts (c : BlockId) : g'.insts c = g.insts c := by
    unfold FlowGraph.insts
    rw [hsame.layout]
  cases hstep with
  | define hn hdef hargs hdoes =>
    obtain ⟨n, hn, heq⟩ := hsame.exists_node hn
    rw [← heq] at hdef hargs hdoes
    exact .define hn hdef hargs hdoes
  | pass hn hdef hterm hargs hdoes =>
    obtain ⟨n, hn, heq⟩ := hsame.exists_node hn
    rw [← heq] at hdef hterm hargs hdoes
    exact .pass hn hdef hterm hargs hdoes
  | jump hn hterm hc hargs hdoes hgoes hcross =>
    obtain ⟨n, hn, heq⟩ := hsame.exists_node hn
    rw [← heq] at hterm hc hargs hdoes hgoes
    rw [hinsts]
    exact .jump hn hterm hc hargs hdoes hgoes (hsame.crosses hcross)
  | begin hc hcross =>
    rw [hinsts]
    refine .begin ?_ (hsame.crosses hcross)
    unfold FlowGraph.Edge at hc ⊢
    have hlast : g'.lastInst graphEntry = g.lastInst graphEntry := by
      unfold FlowGraph.lastInst
      rw [hsame.layout]
    rwa [← next_congr hsame.catchEntries hlast fun i _ => hsame.map_inst Inst.successors i]

theorem reaches (h : Reaches g' m s) : Reaches g m s := by
  obtain ⟨s₀, hs₀, hsteps⟩ := h
  refine ⟨s₀, ⟨hs₀.block, hs₀.rest, fun d hd => ?_, fun d hd => ?_⟩,
    Relation.ReflTransGen.mono (fun _ _ h => hsame.step h) _ _ hsteps⟩
  · obtain ⟨n, v, hn, hv, hconstant⟩ := hs₀.initial d (hsame.initial ▸ hd)
    obtain ⟨n, hn, heq⟩ := hsame.exists_node hn
    exact ⟨n, v, hn, hv, heq ▸ hconstant⟩
  · exact hs₀.others d (hsame.initial ▸ hd)

end SameCode

/-! ## What is relied on -/

/-- Nothing but small integers passes a check for them: the execution has left the method where it failed. -/
def ChecksSmis (m : Meaning M) : Prop :=
  ∀ σ μ i c a r μ' v, c.opcode = .checkSmi → c.args[0]? = some a → m.does σ μ i c r μ' → σ a = some v →
  v.isOf .smi = true

/-- The execution is about to leave the block that it is in. -/
def Leaves (g : FlowGraph) (s : State M) : Prop :=
  ∀ i rest n, s.rest = i :: rest → g.nodes[i.index]? = some n → n.inst.isTerminator = true

/-- Wherever executions come, definitions have values of the classes that are recorded for them, and so have the inputs
of phis where they flow into these. -/
structure ClassesHold (g : FlowGraph) (m : Meaning M) : Prop where
  values : ∀ s d n v, Reaches g m s → g.nodes[d.index]? = some n → s.values d = some v → IsKnown (current n) →
    v.isOf (current n) = true
  inputs : ∀ s s' k x a v cls, Reaches g m s → Leaves g s → Step g m s s' → (predsOf g s'.block)[k]? = some s.block →
    LivePhi g s'.block x → inputOf g x k = some a → s.values a = some v → g.reachingClass? ⟨x, k⟩ = some cls →
    IsKnown cls → v.isOf cls = true

def PhiLists (g : FlowGraph) : Prop := ∀ b, ∀ x ∈ phisOf g b, IsPhi g x

theorem classOf_smi (hg : ClassesHold g m) (hs : Reaches g m s) (hx : g.classOf x = .ok .smi)
    (hv : s.values x = some v) : v.isOf .smi = true := by
  obtain ⟨n, hn, hcls⟩ := classOf_eq_ok.mp hx
  exact hcls ▸ hg.values s x n v hs hn hv (hcls ▸ by decide)

/-! ## Checked values -/

theorem isSmi_of_checked (hg : Definite g) (hchecks : ChecksSmis m) (hs : Follows g m path front s)
    (hrest : s.rest = i :: rest) (hchecked : Checked g d i) (hv : s.values d = some v) : v.isOf .smi = true := by
  obtain ⟨e, n, hn, hop, harg, a, b, he, hb, hi, hdom, hfront⟩ := hchecked
  obtain ⟨hpath, hblock, hinsts⟩ := hs.sound hg.traceable
  rw [hrest] at hinsts
  obtain rfl : b = s.block := hg.block_unique hi (by simp [hinsts])
  have hnophi (c : BlockId) : e ∉ g.live c := fun hlive => by
    obtain ⟨-, -, hphi⟩ := live_iff.mp hlive
    obtain ⟨n', hn', halive⟩ := Definite.exists_alive hphi
    obtain rfl := Option.some_inj.mp (hn.symm.trans hn')
    rw [Inst.opcode_of_isPhi (Inst.isPhi_of_isAlivePhi halive)] at hop
    cases hop
  have he : e ∈ g.insts a := he.resolve_right (hnophi a)
  obtain ⟨pre, post, htrace, hpost, hsince⟩ := hg.exists_latest hpath he (hblock ▸ hdom) (hblock ▸ hinsts)
    fun ha => hfront front rest hinsts (hblock ▸ ha ▸ he)
  have hterm : n.inst.isTerminator = false := by simp [Inst.isTerminator, hop, Opcode.isTerminator]
  obtain ⟨σ, μ, r, μ', hdoes, -, hsame, -⟩ := hs.latest hg.traceable hn hterm hnophi htrace hpost
  have hbefore := hg.precedes_input (hdom.reachable hb) he hn (List.mem_of_getElem? harg)
  have hne : d ≠ e := by
    rintro rfl
    obtain hinitial | hprecedes := hbefore
    · exact hg.not_initial he hinitial
    · exact hg.not_precedes_self hprecedes
  exact hchecks σ μ e n.inst d r μ' v hop harg hdoes ((hsame d hne (.inl (hsince d hbefore))).symm.trans hv)

theorem isSmi_of_justified (hg : Definite g) (hphis : PhiLists g) (hchecks : ChecksSmis m) {k : Nat}
    (hs : Reaches g m s) (hleaves : Leaves g s) (hstep : Step g m s s') (hx : LivePhi g s'.block x)
    (hpred : (predsOf g s'.block)[k]? = some s.block) (hd : inputOf g x k = some d) (hjustified : Justified g ⟨x, k⟩)
    (hv : s.values d = some v) : v.isOf .smi = true := by
  obtain ⟨path, front, hfollows⟩ := Follows.of_reaches hs
  obtain ⟨hpath, hblock, hinsts⟩ := hfollows.sound hg.traceable
  have hreach : g.Reachable s'.block := ((hfollows.across hleaves hstep).sound hg.traceable).1.reachable
  cases hjustified with
  | branch hn hbranch =>
    obtain ⟨n', hn', hop⟩ := hphis s'.block x hx.1
    obtain rfl := Option.some_inj.mp (hn.symm.trans hn')
    rw [hop] at hbranch
    cases hbranch
  | @phi b c n d' last hphi hpred' hlast hn hgoto hd' hchecked =>
    obtain rfl := Option.some_inj.mp (hd.symm.trans hd')
    have hmem : last ∈ g.insts b := List.mem_of_getLast? hlast
    -- The goto leads to the block that the execution goes to, and ends the one that it comes from.
    obtain ⟨e, -, -, -, -, -, b', -, hb, hmem', -⟩ := id hchecked
    obtain rfl := hg.block_unique hmem hmem'
    have hedge := hg.edge_of_terminator hb hmem hn (by rw [hgoto]; rfl) (c := c) (by simp [hgoto, Inst.successors])
    obtain rfl := hg.phi_unique hreach (hb.tail hedge) hx ⟨hphi, hx.2⟩
    obtain rfl : s.block = b := Option.some_inj.mp (hpred.symm.trans hpred')
    cases hrest : s.rest with
    | nil =>
      cases hstep with
      | begin =>
        rw [hg.entry] at hmem
        cases hmem
      | _ => cases hrest
    | cons i rest =>
      have hi : i ∈ g.insts s.block := by simp [hinsts, hrest]
      obtain ⟨n', last', hn', hlast', hholds⟩ := hg.inst_holds hb hi
      obtain rfl := hholds.terminates.mp (hleaves i rest n' hrest hn')
      obtain rfl := Option.some_inj.mp (hlast.symm.trans hlast')
      exact isSmi_of_checked hg hchecks hfollows hrest hchecked hv

/-! ## Phis -/

theorem listed_of_livePhi (hg : Definite g) (hb : g.Reachable b) (hx : LivePhi g b x) : Listed g x := by
  obtain ⟨-, n, hn, hholds⟩ := hg.phi_holds hb hx
  obtain ⟨n', hn', halive⟩ := Definite.exists_alive hx
  obtain rfl := Option.some_inj.mp (hn.symm.trans hn')
  refine ⟨⟨n, hn, Inst.opcode_of_isPhi (Inst.isPhi_of_isAlivePhi halive)⟩, fun k d hd => ?_⟩
  obtain ⟨n', hn', hd⟩ := Option.bind_eq_some_iff.mp hd
  obtain rfl := Option.some_inj.mp (hn.symm.trans hn')
  exact (hholds.inputs k d hd).listed

theorem isSmi_behind (hg : Definite g) (hphis : PhiLists g) (hp : Propagated g g') (hchecks : ChecksSmis m)
    (hclasses : ClassesHold g m) (hs : Reaches g m s) (hleaves : Leaves g s) (hstep : Step g m s s')
    (hcross : Crosses g s.block s'.block s.values s'.values)
    (ih : ∀ x v, g'.classOf x = .ok .smi → s.values x = some v → v.isOf .smi = true) (hnew : g.classOf x ≠ .ok .smi)
    (hx : g'.classOf x = .ok .smi) (hv : s'.values x = some v) : v.isOf .smi = true := by
  obtain ⟨path, front, hfollows⟩ := Follows.of_reaches hs
  have hreach : g.Reachable s'.block := ((hfollows.across hleaves hstep).sound hg.traceable).1.reachable
  obtain ⟨k, hpred, hall⟩ := hcross
  by_cases hlive : LivePhi g s'.block x
  · obtain ⟨a, w, ha, haw, hxw⟩ := (hall x).1 hlive
    obtain rfl := Option.some_inj.mp (hv.symm.trans hxw)
    obtain ⟨reaching, honly⟩ := hp.rest
    have hinput : inputOf g' x k = some a := (inputOf_of_only honly k).trans ha
    obtain ⟨n, hn, hk⟩ := Option.bind_eq_some_iff.mp hinput
    have hall := (hp.inputs x (listed_of_livePhi hg hreach hlive) hx).resolve_left hnew n hn k
      (List.getElem?_eq_some_iff.mp hk).1
    obtain hmarked | ⟨-, a', ha', hsmi⟩ := useClass_eq_ok.mp hall
    · obtain hold | ⟨-, hjustified⟩ := hp.reaching ⟨x, k⟩
      · exact hclasses.inputs s s' k x a v .smi hs hleaves hstep hpred hlive ha haw (hold.symm.trans hmarked)
          (by decide)
      · exact isSmi_of_justified hg hphis hchecks hs hleaves hstep hlive hpred ha hjustified haw
    · obtain rfl := Option.some_inj.mp (hinput.symm.trans ha')
      exact ih a v hsmi haw
  · exact ih x v hx ((hall x).2 hlive ▸ hv)

theorem isSmi_of_propagated (hg : Definite g) (hphis : PhiLists g) (hp : Propagated g g') (hchecks : ChecksSmis m)
    (hclasses : ClassesHold g m) (hs : Reaches g m s) :
    ∀ x v, g'.classOf x = .ok .smi → s.values x = some v → v.isOf .smi = true := by
  have hphi {x : InstId} (hx : g'.classOf x = .ok .smi) (hnew : g.classOf x ≠ .ok .smi) : IsPhi g x :=
    ((hp.candidates x hx).resolve_left hnew).elim id fun ⟨c, hc⟩ => hphis c x hc
  refine hs.induction (fun s => ∀ x v, g'.classOf x = .ok .smi → s.values x = some v → v.isOf .smi = true) ?_ ?_
  · intro s hs x v hx hv
    by_cases hnew : g.classOf x = .ok .smi
    · exact classOf_smi hclasses ⟨s, hs, .refl⟩ hnew hv
    · by_cases hinitial : x ∈ g.initialDefinitions
      · obtain ⟨n, hn, hop⟩ := hphi hx hnew
        obtain ⟨n', hn', hgiven, -⟩ := hg.initial x hinitial
        obtain rfl := Option.some_inj.mp (hn.symm.trans hn')
        obtain ⟨c, hc⟩ | ⟨k, hk⟩ := Inst.eq_of_isGiven hgiven
        · simp [hc, Inst.opcode] at hop
        · simp [hk, Inst.opcode] at hop
      · rw [hs.others x hinitial] at hv
        cases hv
  · intro s s' hs ih hstep x v hx hv
    have hs' : Reaches g m s' := hs.imp fun _ h => ⟨h.1, h.2.tail hstep⟩
    by_cases hnew : g.classOf x = .ok .smi
    · exact classOf_smi hclasses hs' hnew hv
    cases hstep with
    | define hn hdef hargs hdoes =>
      obtain ⟨path, front, hfollows⟩ := Follows.of_reaches hs
      obtain ⟨-, -, hinsts⟩ := hfollows.sound hg.traceable
      obtain ⟨n', hn', hop⟩ := hphi hx hnew
      refine ih x v hx ((Function.update_of_ne ?_ ..).symm.trans hv)
      rintro rfl
      exact hg.phisApart.opcode_ne_phi hg.located (by rw [hinsts]; simp) hn' hop
    | pass => exact ih x v hx hv
    | jump hn hterm hc hargs hdoes hgoes hcross =>
      refine isSmi_behind hg hphis hp hchecks hclasses hs ?_ (.jump hn hterm hc hargs hdoes hgoes hcross) hcross ih hnew
        hx hv
      intro i rest n hrest hn'
      obtain ⟨rfl, rfl⟩ := List.cons.inj hrest
      obtain rfl := Option.some_inj.mp (hn.symm.trans hn')
      exact hterm
    | begin hc hcross =>
      exact isSmi_behind hg hphis hp hchecks hclasses hs (fun _ _ _ hrest => by cases hrest) (.begin hc hcross) hcross
        ih hnew hx hv

/-- Propagation changes marks of uses and recorded classes only. A use that it marks is one of a value that every way to
the branch, or to the end of the predecessor of the phi, has checked. Small integers flow into all inputs of a phi that
it has made a small integer. So in executions in which failed checks leave the method such phis hold small integers, if
the classes recorded before were right. -/
theorem propagateSmis_justified (hg : Definite g) (hcurrent : g.Current) {changed : Bool}
    (hrun : propagateSmis.run g = .ok (changed, g')) :
    (∃ reaching, OnlyClasses { g with reaching } g') ∧
      (∀ u, g'.reachingClass? u ≠ g.reachingClass? u → g'.reachingClass? u = some .smi ∧ Justified g u) ∧
      (∀ b x n, g.Reachable b → LivePhi g b x → g.nodes[x.index]? = some n → g'.classOf x = .ok .smi →
        g.classOf x ≠ .ok .smi → ∀ k < n.inst.args.length, g'.useClass x k = .ok .smi) ∧
      ∀ (M : Type) (m : Meaning M) (s : State M), PhiLists g → ChecksSmis m → ClassesHold g m → Reaches g' m s →
        ∀ b x v, LivePhi g b x → g'.classOf x = .ok .smi → s.values x = some v → v.isOf .smi = true := by
  have hp : Propagated g g' := (leads_propagateSmis hg hcurrent.exactDominators).post_of_ok hrun
  refine ⟨hp.rest, fun u hu => (hp.reaching u).resolve_left hu, fun b x n hb hx hn hsmi hnew k hk => ?_,
    fun M m s hphis hchecks hclasses hs b x v _ => ?_⟩
  · obtain ⟨reaching, honly⟩ := hp.rest
    obtain ⟨cls, hn'⟩ := honly.node hn
    exact (hp.inputs x (listed_of_livePhi hg hb hx) hsmi).resolve_left hnew _ hn' k hk
  · obtain ⟨reaching, honly⟩ := hp.rest
    exact isSmi_of_propagated hg hphis hp hchecks hclasses ((SameCode.of_only honly).reaches hs) x v

/-! ## Graphs without recorded classes -/

/-- Instructions give values of the classes that they are known to give. -/
def GivesClasses (m : Meaning M) : Prop :=
  ∀ σ μ i c v μ', m.does σ μ i c (some v) μ' → IsKnown c.resultClass → v.isOf c.resultClass = true

theorem isOf_classId (c : Constant) : (Value.constant c).isOf c.classId = true := by
  have hnull (h : c.classId = .null) : c.isNull = true := by
    cases c with
    | null => rfl
    | str s =>
      simp only [Constant.classId] at h
      split at h <;> exact absurd h (by decide)
    | bool | smi | mint | double | array | typeArguments | type =>
      exact absurd h (by simp only [Constant.classId]; decide)
  simpa [Value.isOf, Value.classId, Value.isNull, or_iff_not_imp_left] using hnull

theorem classesHold_of_fresh (hg : Definite g) (hreaching : g.reaching = []) (hcls : ∀ n ∈ g.nodes, n.cls = none)
    (hgives : GivesClasses m) : ClassesHold g m where
  inputs s s' k x a v cls _ _ _ _ _ _ _ hmarked := by simp [reachingClass?, hreaching] at hmarked
  values s d n v hs hn := by
    have hown {d : InstId} {n : Node} (hn : g.nodes[d.index]? = some n) : current n = n.ownClass := by
      simp [current, hcls n (Array.mem_of_getElem? hn)]
    refine hs.induction (fun s => ∀ d n v, g.nodes[d.index]? = some n → s.values d = some v → IsKnown (current n) →
      v.isOf (current n) = true) ?_ ?_ d n v hn
    · intro s hs d n v hn hv hknown
      by_cases hd : d ∈ g.initialDefinitions
      · obtain ⟨n', w, hn', hw, hconstant⟩ := hs.initial d hd
        obtain ⟨n'', hn'', hgiven, -⟩ := hg.initial d hd
        obtain rfl := Option.some_inj.mp (hn.symm.trans hn')
        obtain rfl := Option.some_inj.mp (hn.symm.trans hn'')
        obtain rfl := Option.some_inj.mp (hv.symm.trans hw)
        rw [hown hn] at hknown ⊢
        obtain ⟨c, hc⟩ | ⟨k, hk⟩ := Inst.eq_of_isGiven hgiven
        · rw [hconstant c hc, Node.ownClass, hc]
          exact isOf_classId c
        · simp [Node.ownClass, hk, Inst.opcode, IsKnown] at hknown
      · rw [hs.others d hd] at hv
        cases hv
    · intro s s' hs ih hstep d n v hn hv hknown
      have hbehind (hcross : Crosses g s.block s'.block s.values s'.values) : v.isOf (current n) = true := by
        obtain ⟨k, -, hall⟩ := hcross
        by_cases hlive : LivePhi g s'.block d
        · obtain ⟨n', hn', halive⟩ := Definite.exists_alive hlive
          obtain rfl := Option.some_inj.mp (hn.symm.trans hn')
          rw [hown hn, Node.ownClass, Inst.opcode_of_isPhi (Inst.isPhi_of_isAlivePhi halive)] at hknown
          exact absurd rfl hknown.2
        · exact ih d n v hn ((hall d).2 hlive ▸ hv) hknown
      cases hstep with
      | @define b i rest σ μ μ' l w hl hdef hargs hdoes =>
        by_cases hd : d = i
        · subst hd
          obtain rfl := Option.some_inj.mp (hn.symm.trans hl)
          obtain rfl : w = v := by simpa using hv
          rw [hown hn] at hknown ⊢
          unfold Node.ownClass at hknown ⊢
          split at hknown
          · exact absurd rfl hknown.2
          · exact absurd rfl hknown.1
          · exact absurd rfl hknown.1
          · exact hgives _ _ _ _ _ _ hdoes hknown
        · exact ih d n v hn ((Function.update_of_ne hd ..).symm.trans hv) hknown
      | pass => exact ih d n v hn hv hknown
      | jump _ _ _ _ _ _ hcross => exact hbehind hcross
      | begin _ hcross => exact hbehind hcross

/-! ## A loop behind a check -/

/-- Checks what it is told to check, and goes on with what else is known to be of the class that it gives. -/
def strictMeaning : Meaning Unit where
  does σ _ _ c r _ := (∀ v, r = some v → IsKnown c.resultClass → v.isOf c.resultClass = true) ∧
    ∀ a v, c.opcode = .checkSmi → c.args[0]? = some a → σ a = some v → v.isOf .smi = true
  goes _ _ _ _ := True

theorem checksSmis_strictMeaning : ChecksSmis strictMeaning := fun _ _ _ _ a _ _ v hop ha hdoes => hdoes.2 a v hop ha

theorem givesClasses_strictMeaning : GivesClasses strictMeaning := fun _ _ _ _ v _ hdoes => hdoes.1 v rfl

def strictEvaluator (g : FlowGraph) : Evaluator g strictMeaning where
  run σ μ c := match c with
    | .constant c => some (some (.constant c), μ)
    | .unary .checkSmi a => if (σ a).all (·.isOf .smi) then some (none, μ) else none
    | .binaryOp .binarySmiOp .add l r _ =>
      ((σ l).bind Value.smi?).bind fun x => ((σ r).bind Value.smi?).map fun y => (some (.smi (x + y)), μ)
    | _ => none
  does := by
    intro σ μ i c r μ' _ hrun
    split at hrun
    case h_1 c _ =>
      obtain rfl := (Prod.mk.inj (Option.some_inj.mp hrun)).1
      refine ⟨?_, nofun⟩
      rintro _ ⟨⟩ -
      exact isOf_classId c
    case h_2 a _ =>
      obtain ⟨hall, rfl, -⟩ : (σ a).all (·.isOf .smi) = true ∧ none = r ∧ μ = μ' := by simpa using hrun
      refine ⟨nofun, fun a' v _ ha hv => ?_⟩
      obtain rfl : a = a' := by simpa [Inst.args] using ha
      simpa [hv] using hall
    case h_3 =>
      obtain ⟨x, -, h⟩ := Option.bind_eq_some_iff.mp hrun
      obtain ⟨y, -, heq⟩ := Option.map_eq_some_iff.mp h
      obtain rfl := (Prod.mk.inj heq).1
      refine ⟨?_, nofun⟩
      rintro _ ⟨⟩ -
      rfl
    case h_4 => cases hrun
  jumps _ := ⟨⟨nofun, nofun⟩, trivial⟩
  branches _ _ := ⟨⟨nofun, nofun⟩, trivial⟩

/-- What is to be seen of the counting loop, computed. The execution has gone through the loop once. -/
def checkedLoopHolds (r : FlowGraph) : Bool :=
  match Ssa.construct.run r with
  | .ok (.ok (), g) =>
    match propagateSmis.run g with
    | .ok (_, g') => decide (DefiniteSeen g ∧ g.Current ∧ ⟨2⟩ ∈ g.reversePostorder ∧ LivePhi g ⟨2⟩ ⟨15⟩ ∧
        g.reaching = [] ∧ ∀ n ∈ g.nodes, n.cls = none) && ((g.nodes[15]?).any fun n => n.inst.args.length == 2) &&
      (List.range g.blocks.size).all (fun b => (phisOf g ⟨b⟩).all fun x => (g.opcode x).toOption == some .phi) &&
      (g'.reachingClass? ⟨⟨15⟩, 0⟩).isSome && (g'.classOf ⟨15⟩).toOption == some .smi &&
      (g.classOf ⟨15⟩).toOption == some .illegal && (g'.initialDefinitions.all fun d => (g'.nodes[d.index]?).isSome) &&
      ((strictEvaluator g').after? 7 (startState g' (fun k => .smi (k + 3)) ())).any fun s =>
        s.block == ⟨2⟩ && (s.values ⟨15⟩).bind Value.smi? == some 4
    | _ => false
  | _ => false

/-- The loop counter becomes a small integer by the check in front of the loop. -/
theorem checkedLoop_counts : ∃ g g' s v, Definite g ∧ g.Current ∧ (∃ changed, propagateSmis.run g = .ok (changed, g')) ∧
    PhiLists g ∧ ChecksSmis strictMeaning ∧ ClassesHold g strictMeaning ∧
    Justified g ⟨⟨15⟩, 0⟩ ∧ LivePhi g ⟨2⟩ ⟨15⟩ ∧ (g.classOf ⟨15⟩ ≠ .ok .smi ∧ g'.classOf ⟨15⟩ = .ok .smi) ∧
    g'.useClass ⟨15⟩ 1 = .ok .smi ∧ Reaches g' strictMeaning s ∧ s.values ⟨15⟩ = some v ∧ v.smi? = some 4 ∧
    v.isOf .smi = true := by
  have hcompute : ((Command.script countedLoop normalEntry (FlowGraph.new "f" 2 1)).map (checkedLoopHolds ·.2)) =
    some true := by
    decide +kernel
  obtain ⟨⟨b₀, r⟩, hscript, hholds⟩ := Option.map_eq_some_iff.mp hcompute
  unfold checkedLoopHolds at hholds
  split at hholds
  case h_2 => cases hholds
  case h_1 g hg =>
    split at hholds
    case h_2 => cases hholds
    case h_1 changed g' hg' =>
      simp only [Bool.and_eq_true, beq_iff_eq, decide_eq_true_eq, List.all_eq_true, Option.any_eq_true,
        toOption_eq_some_iff] at hholds
      obtain ⟨⟨⟨⟨⟨⟨⟨⟨hseen, hcurrent, hmem, hlive, hreaching, hcls⟩, n, hn, htwo⟩, hphis⟩, hmarked⟩, hsmi⟩, hillegal⟩,
        hinitial⟩, s, hs, hblock, hfour⟩ := hholds
      have hd := hseen.definite
      obtain ⟨-, hall, hinputs, hexec⟩ := propagateSmis_justified hd hcurrent hg'
      have hlists : PhiLists g := fun b x hx => by
        obtain ⟨k, hk, -⟩ := exists_of_mem_phisOf hx
        exact opcode_eq_ok.mp (hphis b.index (List.mem_range.mpr (Array.getElem?_eq_some_iff.mp hk).1) x hx)
      have hnew : g.classOf ⟨15⟩ ≠ .ok .smi := by
        rw [hillegal]
        exact fun h => absurd (Except.ok.inj h) (by decide)
      have hreach : g.Reachable ⟨2⟩ := hd.reachable_of_mem_order hmem
      obtain ⟨v, hv, hfour⟩ := Option.bind_eq_some_iff.mp hfour
      have hs : Reaches g' strictMeaning s := ⟨_, start_startState hinitial, Evaluator.steps_of_after hs⟩
      have hclasses := classesHold_of_fresh hd hreaching hcls givesClasses_strictMeaning
      obtain ⟨c, hc⟩ := Option.isSome_iff_exists.mp hmarked
      refine ⟨g, g', s, v, hd, hcurrent, ⟨changed, hg'⟩, hlists, checksSmis_strictMeaning, hclasses, (hall _ ?_).2,
        hlive, ⟨hnew, hsmi⟩, hinputs ⟨2⟩ ⟨15⟩ n hreach hlive hn hsmi hnew 1 (by omega), hs, hv, hfour, ?_⟩
      · have hnone : g.reachingClass? ⟨⟨15⟩, 0⟩ = none := by simp [reachingClass?, hreaching]
        simp [hc, hnone]
      · exact hexec Unit strictMeaning s hlists checksSmis_strictMeaning hclasses hs ⟨2⟩ ⟨15⟩ v hlive hsmi hv

end Midend.SmallIntegers
