import Midend.Graph.Text
import Midend.Ranges
import Midend.Proofs.Consistency

/-! # What the text of a graph shows

Use lists, recorded classes and the numbers of blocks are not to be seen in the text of a graph. Some marks are: the
heads of loops, the ranges of definitions, and which phis are alive. Graphs that agree in these and in their code have
the same text.
-/

namespace Midend.Reports

open FlowGraph

variable {α β : Type} {g g' : FlowGraph} {b : BlockId} {i : InstId} {t : String}

/-! ## Graphs with the same text -/

/-- The instruction has a line of its own in the text. -/
def HasLine (g : FlowGraph) (i : InstId) : Prop :=
  i ∈ g.initialDefinitions ∨ (∃ b, i ∈ g.insts b) ∨ ∃ b ps, g.livePhis b = .ok ps ∧ i ∈ ps

def heading (g : FlowGraph) : String × Nat × Nat × List BlockId × List InstId :=
  (g.name, g.parameterCount, g.localCount, g.postorder, g.initialDefinitions)

/-- Whatever the text shows of `g` besides marks, it shows of `g'`. -/
structure Shows (g g' : FlowGraph) : Prop where
  header : heading g' = heading g
  insts : ∀ b, g'.insts b = g.insts b
  blocks : ∀ (b : BlockId) k, g.blocks[b.index]? = some k → ∃ k', g'.blocks[b.index]? = some k' ∧ k'.kind = k.kind ∧
    k'.preds = k.preds ∧ k'.dominator = k.dominator
  indices : ∀ (i : InstId) n, g.nodes[i.index]? = some n → ∃ n', g'.nodes[i.index]? = some n' ∧ n'.ssaIndex = n.ssaIndex
  code : ∀ (i : InstId) n n', HasLine g i → g.nodes[i.index]? = some n → g'.nodes[i.index]? = some n' →
    n'.env = n.env ∧ (n'.inst = n.inst ∨ n'.inst = Ranges.clearOverflow n.inst)

def SameLoops (g g' : FlowGraph) : Prop :=
  ∀ (b : BlockId) k k', g.blocks[b.index]? = some k → g'.blocks[b.index]? = some k' → k'.loop.isSome = k.loop.isSome

def SameRanges (g g' : FlowGraph) : Prop :=
  ∀ (i : InstId) n n', g.nodes[i.index]? = some n → g'.nodes[i.index]? = some n' → n'.range = n.range

def SamePhis (g g' : FlowGraph) : Prop := ∀ b ps, g.livePhis b = .ok ps → g'.livePhis b = .ok ps

/-- Whatever the text may show of an instruction is the same. -/
structure SameLine (n n' : Node) : Prop where
  inst : n'.inst = n.inst
  env : n'.env = n.env
  index : n'.ssaIndex = n.ssaIndex
  range : n'.range = n.range

theorem SameLine.refl (n : Node) : SameLine n n := ⟨rfl, rfl, rfl, rfl⟩

theorem SameLine.trans {n n' n'' : Node} (h : SameLine n n') (h' : SameLine n' n'') : SameLine n n'' :=
  ⟨h'.inst.trans h.inst, h'.env.trans h.env, h'.index.trans h.index, h'.range.trans h.range⟩

theorem Shows.of_lines (hheading : heading g' = heading g) (hinsts : ∀ b, g'.insts b = g.insts b)
    (hblocks : ∀ (b : BlockId) k, g.blocks[b.index]? = some k → ∃ k', g'.blocks[b.index]? = some k' ∧ k'.kind = k.kind ∧
      k'.preds = k.preds ∧ k'.dominator = k.dominator)
    (hlines : ∀ (i : InstId) n, g.nodes[i.index]? = some n → ∃ n', g'.nodes[i.index]? = some n' ∧ SameLine n n') :
    Shows g g' ∧ SameRanges g g' := by
  have hline (i : InstId) (n n' : Node) (hn : g.nodes[i.index]? = some n) (hn' : g'.nodes[i.index]? = some n') :
      SameLine n n' := by
    obtain ⟨m, hm, hsame⟩ := hlines i n hn
    obtain rfl := Option.some_inj.mp (hn'.symm.trans hm)
    exact hsame
  refine ⟨⟨hheading, hinsts, hblocks, fun i n hn => ?_, fun i n n' _ hn hn' => ?_⟩, fun i n n' hn hn' =>
    (hline i n n' hn hn').range⟩
  · obtain ⟨n', hn', hsame⟩ := hlines i n hn
    exact ⟨n', hn', hsame.index⟩
  · exact ⟨(hline i n n' hn hn').env, .inl (hline i n n' hn hn').inst⟩

theorem Shows.refl (g : FlowGraph) : Shows g g :=
  (Shows.of_lines rfl (fun _ => rfl) (fun _ k hk => ⟨k, hk, rfl, rfl, rfl⟩) fun _ n hn => ⟨n, hn, .refl n⟩).1

theorem SameLoops.refl (g : FlowGraph) : SameLoops g g := fun _ k k' hk hk' => by
  obtain rfl := Option.some_inj.mp (hk.symm.trans hk')
  rfl

theorem SameLoops.of_eq (h : g'.blocks = g.blocks) : SameLoops g g' := fun b k k' hk hk' =>
  SameLoops.refl g b k k' hk (h ▸ hk')

theorem SameRanges.refl (g : FlowGraph) : SameRanges g g := fun _ n n' hn hn' => by
  obtain rfl := Option.some_inj.mp (hn.symm.trans hn')
  rfl

theorem SamePhis.refl (g : FlowGraph) : SamePhis g g := fun _ _ h => h

/-! ## Lines -/

/-- What the one reading gives, the other one gives too. -/
def Refines (x x' : Except Fault α) : Prop := ∀ a, x = .ok a → x' = .ok a

namespace Refines

theorem refl (x : Except Fault α) : Refines x x := fun _ h => h

theorem bind_of_ok {x : Except Fault α} {x' : Except Fault α} {f f' : α → Except Fault β}
    (h : ∀ a, x = .ok a → ∃ a', x' = .ok a' ∧ Refines (f a) (f' a')) : Refines (x >>= f) (x' >>= f') := by
  intro b hb
  obtain ⟨a, ha, hb⟩ := bind_eq_ok.mp hb
  obtain ⟨a', ha', hf⟩ := h a ha
  exact bind_eq_ok.mpr ⟨a', ha', hf b hb⟩

theorem bind {x x' : Except Fault α} {f f' : α → Except Fault β} (hx : Refines x x') (hf : ∀ a, Refines (f a) (f' a)) :
    Refines (x >>= f) (x' >>= f') :=
  bind_of_ok fun a ha => ⟨a, hx a ha, hf a⟩

theorem ite {c : Prop} [Decidable c] {x x' y y' : Except Fault α} (hx : Refines x x') (hy : Refines y y') :
    Refines (if c then x else y) (if c then x' else y') := by
  split
  · exact hx
  · exact hy

theorem mapM {f f' : α → Except Fault β} {xs : List α} (hf : ∀ x ∈ xs, Refines (f x) (f' x)) :
    Refines (xs.mapM f) (xs.mapM f') := by
  induction xs with
  | nil => exact refl _
  | cons x xs ih =>
    rw [List.forall_mem_cons] at hf
    rw [List.mapM_cons, List.mapM_cons]
    exact bind hf.1 fun y => bind (ih hf.2) fun ys => refl _

end Refines

section

variable (d : Inst)

theorem opcode_clearOverflow : (Ranges.clearOverflow d).opcode = d.opcode := by cases d <;> rfl

theorem args_clearOverflow : (Ranges.clearOverflow d).args = d.args := by cases d <;> rfl

theorem arguments_clearOverflow : (Ranges.clearOverflow d).arguments = d.arguments := by cases d <;> rfl

theorem attributeText_clearOverflow : attributeText (Ranges.clearOverflow d) = attributeText d := by cases d <;> rfl

theorem jumpText_clearOverflow : jumpText (Ranges.clearOverflow d) = jumpText d := by cases d <;> rfl

theorem representation_clearOverflow : (Ranges.clearOverflow d).representation = d.representation := by cases d <;> rfl

end

namespace Shows

variable (h : Shows g g')

include h

theorem valueName (i : InstId) : Refines (g.valueName i) (g'.valueName i) := by
  refine Refines.bind (fun index hindex => ?_) fun _ => .refl _
  obtain ⟨n, hn, hindex⟩ := bind_eq_ok.mp hindex
  obtain ⟨n', hn', hsame⟩ := h.indices i n (node_eq_ok.mp hn)
  exact bind_eq_ok.mpr ⟨n', node_eq_ok.mpr hn', pure_eq_ok.mpr (hsame.trans (pure_eq_ok.mp hindex))⟩

theorem valueNames (is : List InstId) : Refines (g.valueNames is) (g'.valueNames is) := .mapM fun i _ => h.valueName i

theorem instText (hranges : SameRanges g g') (hline : HasLine g i) : Refines (g.instText i) (g'.instText i) := by
  refine .bind_of_ok fun n hn => ?_
  have hn := node_eq_ok.mp hn
  obtain ⟨n', hn', hindex⟩ := h.indices i n hn
  obtain ⟨henv, hinst⟩ := h.code i n n' hline hn hn'
  refine ⟨n', node_eq_ok.mpr hn', ?_⟩
  have hrange := hranges i n n' hn hn'
  have hsame : n'.inst.opcode = n.inst.opcode ∧ n'.inst.args = n.inst.args ∧ n'.inst.arguments = n.inst.arguments ∧
      attributeText n'.inst = attributeText n.inst ∧ jumpText n'.inst = jumpText n.inst ∧
      n'.inst.representation = n.inst.representation := by
    obtain hinst | hinst := hinst
    · rw [hinst]
      exact ⟨rfl, rfl, rfl, rfl, rfl, rfl⟩
    · rw [hinst]
      exact ⟨opcode_clearOverflow _, args_clearOverflow _, arguments_clearOverflow _, attributeText_clearOverflow _,
        jumpText_clearOverflow _, representation_clearOverflow _⟩
  obtain ⟨hopcode, hargs, harguments, hattribute, hjump, hrepresentation⟩ := hsame
  have hdef : n'.inst.isDefinition = n.inst.isDefinition := by rw [Inst.isDefinition, hopcode, Inst.isDefinition]
  simp only [hopcode, hargs, harguments, hattribute, hjump, hrepresentation, hdef, hindex, henv, hrange]
  -- What is left differs in the graph that names are looked up in.
  repeat' first
    | exact .refl _
    | exact h.valueName _
    | exact h.valueNames _
    | refine .ite ?_ ?_
    | refine .bind ?_ fun _ => ?_
    | split

theorem instLine (hranges : SameRanges g g') (hline : HasLine g i) : Refines (g.instLine i) (g'.instLine i) :=
  .bind (h.instText hranges hline) fun _ => .refl _

/-! ## Blocks -/

theorem blockText (hloops : SameLoops g g') (hranges : SameRanges g g') (hphis : SamePhis g g') (b : BlockId) :
    Refines (g.blockText b) (g'.blockText b) := by
  refine .bind_of_ok fun k hk => ?_
  obtain ⟨k', hk', hkind, hpreds, hdominator⟩ := h.blocks b k (block_eq_ok.mp hk)
  have hline : blockLine b k' = blockLine b k := by
    have hloop := hloops b k k' (block_eq_ok.mp hk) hk'
    simp only [blockLine, hkind, hpreds, hdominator, hloop]
  refine ⟨k', block_eq_ok.mpr hk', ?_⟩
  have hinitial : g'.initialDefinitions = g.initialDefinitions := congrArg (·.2.2.2.2) h.header
  rw [hline, hinitial, h.insts]
  refine .bind_of_ok fun phis hlive => ⟨phis, hphis b phis hlive, .bind (.mapM fun i hi => ?_) fun _ => .refl _⟩
  refine h.instLine hranges ?_
  obtain hi | hi := List.mem_append.mp hi
  · obtain hi | hi := List.mem_append.mp hi
    · split at hi
      · exact .inl hi
      · cases hi
    · exact .inr (.inr ⟨b, phis, hlive, hi⟩)
  · exact .inr (.inl ⟨b, hi⟩)

/-- A graph that shows the same and has the same marks has the same text. -/
theorem text (hloops : SameLoops g g') (hranges : SameRanges g g') (hphis : SamePhis g g') :
    Refines g.text g'.text := by
  obtain ⟨hname, hparameters, hlocals, hpostorder, -⟩ : g'.name = g.name ∧ g'.parameterCount = g.parameterCount ∧
      g'.localCount = g.localCount ∧ g'.postorder = g.postorder ∧ g'.initialDefinitions = g.initialDefinitions := by
    simpa only [heading, Prod.mk.injEq] using h.header
  unfold FlowGraph.text FlowGraph.reversePostorder
  rw [hpostorder, hname, hparameters, hlocals]
  exact .bind (.mapM fun b _ => h.blockText hloops hranges hphis b) fun _ => .refl _

end Shows

end Midend.Reports
