import Midend.Flow.Order
import Midend.Proofs.Builder
import Midend.Proofs.Flow.Semidominators
import Midend.Proofs.Graph.Nodes

/-! # What discovery finds

The walk visits exactly the blocks that edges lead to. In the end the predecessor lists have every edge, and
every block but the entry was found from one of its predecessors.
-/

namespace Midend

namespace FlowGraph

variable {g : FlowGraph} {b s : BlockId}

/-- The successors of a block, none where they cannot be read. -/
def next (g : FlowGraph) (b : BlockId) : List BlockId :=
  match g.succs b with
  | .ok ss => ss
  | .error _ => []

theorem next_of_ok {ss : List BlockId} (h : g.succs b = .ok ss) : g.next b = ss := by rw [next, h]

def Edge (g : FlowGraph) (a b : BlockId) : Prop := b ∈ g.next a

def Reachable (g : FlowGraph) (b : BlockId) : Prop := Relation.ReflTransGen g.Edge graphEntry b

/-- Nothing that a walk over the blocks looks up is missing, and sets have room for all local slots. -/
structure Walkable (g : FlowGraph) : Prop where
  entry : graphEntry.index < g.blocks.size
  insts : ∀ b, ∀ i ∈ g.insts b, i.index < g.nodes.size
  successors : ∀ b, ∀ s ∈ g.next b, s.index < g.blocks.size
  slots : g.parameterCount + g.localCount ≤ NumberSet.limit
  stores : ∀ (i : InstId) (n : Node), g.nodes[i.index]? = some n → ∀ s, n.inst.slot? = some s → s ≤ NumberSet.limit

theorem Walkable.succs_eq (hg : g.Walkable) (b : BlockId) : ∃ ss, g.succs b = .ok ss := by
  unfold succs
  split
  · exact ⟨_, rfl⟩
  · cases hlast : g.lastInst b with
    | none => exact ⟨_, rfl⟩
    | some i =>
      have hi : i.index < g.nodes.size := hg.insts b i (List.mem_of_getLast? hlast)
      have hinst : g.inst i = .ok g.nodes[i.index].inst := inst_eq_ok.mpr ⟨_, Array.getElem?_eq_getElem hi, rfl⟩
      simp only [hinst]
      exact ⟨_, rfl⟩

theorem length_next_le (hb : b ≠ graphEntry) : (g.next b).length ≤ 2 := by
  unfold next succs
  rw [if_neg hb]
  cases g.lastInst b with
  | none => exact Nat.zero_le 2
  | some i =>
    cases hd : g.inst i with
    | error e => simp [hd, bind, Except.bind]
    | ok d => cases d <;> simp [hd, Inst.successors, bind, Except.bind, pure, Except.pure]

end FlowGraph

namespace Raw

variable {g : FlowGraph} {b s : BlockId}

theorem exists_node (hg : Raw g) {i : InstId} (hi : i ∈ g.insts b) : ∃ n, g.nodes[i.index]? = some n :=
  ⟨_, Array.getElem?_eq_getElem (hg.placed i b (hg.layout.mem_iff.mp hi))⟩

theorem exists_last (hg : Raw g) {i : InstId} (hi : g.lastInst b = some i) : ∃ n, g.nodes[i.index]? = some n :=
  hg.exists_node (List.mem_of_getLast? hi)

theorem next_graphEntry (hcatch : g.catchEntries = []) :
    g.next FlowGraph.graphEntry = [FlowGraph.normalEntry] := by
  refine FlowGraph.next_of_ok ?_
  simp [FlowGraph.succs, hcatch, pure, Except.pure]

theorem next_of_last (hb : b ≠ FlowGraph.graphEntry) {i : InstId} {n : Node} (hlast : g.lastInst b = some i)
    (hn : g.nodes[i.index]? = some n) : g.next b = n.inst.successors := by
  refine FlowGraph.next_of_ok ?_
  have hinst : g.inst i = .ok n.inst := FlowGraph.inst_eq_ok.mpr ⟨n, hn, rfl⟩
  simp only [FlowGraph.succs, if_neg hb, hlast, hinst]
  rfl

theorem next_eq (hg : Raw g) (hb : b ≠ FlowGraph.graphEntry) : g.next b = [] ∨
    ∃ i n, g.lastInst b = some i ∧ g.nodes[i.index]? = some n ∧ g.next b = n.inst.successors := by
  cases hlast : g.lastInst b with
  | none =>
    refine .inl (FlowGraph.next_of_ok ?_)
    simp [FlowGraph.succs, hb, hlast, pure, Except.pure]
  | some i =>
    obtain ⟨n, hn⟩ := hg.exists_last hlast
    exact .inr ⟨i, n, rfl, hn, next_of_last hb hlast hn⟩

theorem handle_of_mem_next (hg : Raw g) (hcatch : g.catchEntries = []) (hs : s ∈ g.next b) : g.Handle s := by
  by_cases hb : b = FlowGraph.graphEntry
  · rw [hb, next_graphEntry hcatch, List.mem_singleton] at hs
    subst hs
    exact ⟨(Array.getElem?_eq_some_iff.mp hg.entry).1, by simp [FlowGraph.normalEntry, FlowGraph.graphEntry]⟩
  · obtain h | ⟨i, n, -, hn, h⟩ := hg.next_eq hb
    · simp [h] at hs
    · exact (hg.admits i n hn).successors s (h ▸ hs)

theorem walkable (hg : Raw g) (hcatch : g.catchEntries = []) : g.Walkable where
  entry := Nat.lt_of_succ_lt (Array.getElem?_eq_some_iff.mp hg.entry).1
  insts b i hi := hg.placed i b (hg.layout.mem_iff.mp hi)
  successors _ _ hs := (hg.handle_of_mem_next hcatch hs).1
  slots := Nat.le_of_lt hg.slots
  stores i n hn s hs := Nat.le_of_lt ((hg.admits i n hn).slot s hs)

end Raw

namespace Flow

/-! ## The tour -/

structure Tour where
  blocks : Array Block
  preorder : List BlockId
  postorder : List BlockId
  parents : Array (Option Nat)
  assigned : Array NumberSet

def onTour (g : FlowGraph) (t : Tour) : FlowGraph :=
  { g with
    blocks := t.blocks, preorder := t.preorder, postorder := t.postorder, parents := t.parents
    assigned := t.assigned }

namespace Tour

variable {t : Tour}

def withBlock (t : Tour) (b : BlockId) (f : Block → Block) : Tour :=
  { t with blocks := t.blocks.modify b.index f }

/-- The predecessors found so far. Those of blocks that were not visited do not count. -/
def preds (t : Tour) (b : BlockId) : List BlockId :=
  if b ∈ t.preorder then ((t.blocks[b.index]?).map Block.preds).getD [] else []

/-- The tour with `b` as the next block, found from the block numbered `parent`. -/
def visit (t : Tour) (b : BlockId) (pred : Option BlockId) (parent : Option Nat) (slots : NumberSet) : Tour :=
  { blocks := t.blocks.modify b.index fun k =>
      { k with preds := pred.toList, preorderNumber := some t.preorder.length }
    preorder := t.preorder ++ [b]
    postorder := t.postorder
    parents := t.parents.push parent
    assigned := t.assigned.push slots }

def close (t : Tour) (b : BlockId) : Tour :=
  { t.withBlock b fun k => { k with postorderNumber := some t.postorder.length } with
    postorder := t.postorder ++ [b] }

def enter (t : Tour) (b p : BlockId) : Tour := t.withBlock b fun k => { k with preds := withPred k.preds p }

/-- There is an edge between the blocks of two numbers. -/
def NumberEdge (t : Tour) (m n : Nat) : Prop :=
  ∃ p b, t.preorder[m]? = some p ∧ t.preorder[n]? = some b ∧ p ∈ t.preds b

end Tour

theorem getElem?_concat {α : Type} (xs : List α) (x : α) (n : Nat) :
    (xs ++ [x])[n]? = if n = xs.length then some x else xs[n]? := by
  rw [List.getElem?_append]
  by_cases hn : n < xs.length
  · simp [hn, Nat.ne_of_lt hn]
  · by_cases hn' : n = xs.length
    · simp [hn']
    · simp [hn, hn']
      omega

theorem withPred_perm (ps : List BlockId) (p : BlockId) : (withPred ps p).Perm (p :: ps) := by
  unfold withPred
  refine List.perm_middle.trans (List.Perm.cons p ?_)
  rw [List.takeWhile_append_dropWhile]

/-! ## Stored slots -/

end Flow

theorem mem_insertAscending {n m : Nat} {ms : List Nat} : m ∈ insertAscending n ms ↔ m = n ∨ m ∈ ms := by
  induction ms with
  | nil => simp [insertAscending]
  | cons k ms ih =>
    unfold insertAscending
    split
    · simp
    · split
      case isTrue h => simp [h]
      case isFalse => simp [ih, or_left_comm]

theorem NumberSet.contains_of_insert {s s' : NumberSet} {n : Nat} (h : s.insert n = .ok s') (m : Nat) :
    s'.contains m = true ↔ m = n ∨ s.contains m = true := by
  unfold insert extend at h
  dsimp only at h
  split at h
  · obtain rfl := Except.ok.inj h
    simp [contains, mem_insertAscending]
  · split at h
    · obtain rfl := Except.ok.inj h
      simp [contains, mem_insertAscending]
    · cases h

theorem NumberSet.contains_of_ofCapacity {s : NumberSet} {n : Nat} (h : ofCapacity n = .ok s) (m : Nat) :
    s.contains m = false := by
  unfold ofCapacity extend at h
  split at h
  · obtain rfl := Except.ok.inj h
    rfl
  · cases h

theorem NumberSet.exists_insert {s : NumberSet} {n : Nat} (hn : n ≤ limit) : ∃ s', s.insert n = .ok s' := by
  unfold insert extend
  split
  · exact ⟨_, rfl⟩
  · exact ⟨_, rfl⟩

namespace Flow

/-- One of the instructions stores to a slot with these low bits. -/
def StoresIn (g : FlowGraph) (is : List InstId) (m : Nat) : Prop :=
  ∃ i ∈ is, ∃ (n : Node) (s : Nat) (v : InstId), g.nodes[i.index]? = some n ∧ n.inst = .storeLocal s v ∧
    s % 0x100000000 = m

theorem storesIn_concat {g : FlowGraph} {is : List InstId} {i : InstId} {m : Nat} :
    StoresIn g (is ++ [i]) m ↔ StoresIn g is m ∨ StoresIn g [i] m := by
  simp [StoresIn, or_and_right, exists_or]

/-- The set has the low bits of the slots that the instructions store to. -/
def Covers (g : FlowGraph) (slots : NumberSet) (is : List InstId) : Prop :=
  ∀ m, slots.contains m = true ↔ StoresIn g is m

theorem assignedSlots_covers {fault : Prop} {g : FlowGraph} (hg : fault ∨ g.Walkable) (b : BlockId) :
    Yields fault (assignedSlots g (g.insts b)) (Covers g · (g.insts b)) := by
  unfold assignedSlots
  rw [Yields.bind_iff]
  refine Yields.of_ok_or (hg.imp_right fun h => ⟨_, if_pos (Nat.lt_of_le_of_lt h.slots (by decide))⟩)
    fun count hcount => ?_
  rw [Yields.bind_iff]
  refine Yields.of_ok_or (hg.imp_right fun h => ?_) fun slots hslots => ?_
  · obtain rfl : g.parameterCount + g.localCount = count := by
      rw [FlowGraph.variableCount, if_pos (Nat.lt_of_le_of_lt h.slots (by decide))] at hcount
      exact Except.ok.inj hcount
    exact ⟨_, if_pos (Nat.le_trans (Nat.mod_le _ _) h.slots)⟩
  refine Yields.foldlM (fun done slots => Covers g slots done) (fun m => ?_) ?_
  · rw [NumberSet.contains_of_ofCapacity hslots]
    simp [StoresIn]
  intro done i rest slots hrest hdone
  have hi : i ∈ g.insts b := by simp [hrest]
  rw [Yields.bind_iff]
  refine Yields.of_ok_or (hg.imp_right fun h => ⟨_, FlowGraph.inst_eq_ok.mpr
    ⟨_, Array.getElem?_eq_getElem (h.insts b i hi), rfl⟩⟩) fun d hd => ?_
  obtain ⟨n, hn, rfl⟩ := FlowGraph.inst_eq_ok.mp hd
  split
  case h_1 s v hs =>
    have hsmall (h : g.Walkable) : s % 0x100000000 ≤ NumberSet.limit :=
      Nat.le_trans (Nat.mod_le _ _) (h.stores i n hn s (by rw [hs]; rfl))
    refine Yields.of_ok_or (hg.imp_right fun h => NumberSet.exists_insert (hsmall h)) fun slots' hslots' m => ?_
    have hstores : StoresIn g [i] m ↔ m = s % 0x100000000 := by simp [StoresIn, hn, hs, eq_comm]
    rw [NumberSet.contains_of_insert hslots', storesIn_concat, hdone m, hstores, or_comm]
  case h_2 hs =>
    rw [Yields.pure_iff]
    intro m
    have hstores : ¬ StoresIn g [i] m := by
      rintro ⟨j, hj, n', s, v, hn', hs', -⟩
      obtain rfl := List.mem_singleton.mp hj
      obtain rfl : n = n' := Option.some_inj.mp (hn.symm.trans hn')
      exact hs s v hs'
    rw [storesIn_concat, hdone m, or_iff_left hstores]

/-! ## One visit -/

section Visits

variable {fault : Prop} {g : FlowGraph} {t : Tour} {b p : BlockId}

theorem leads_modifyBlock_iff {f : Block → Block} {post : PUnit → FlowGraph → Prop} (hb : b.index < t.blocks.size) :
    Leads fault (onTour g t) (Edit.modifyBlock b f) post ↔ post ⟨⟩ (onTour g (t.withBlock b f)) := by
  have hlt : b.index < (onTour g t).blocks.size := hb
  rw [Leads.modifyBlock_iff]
  exact ⟨fun h => h.1 hlt, fun h => ⟨fun _ => h, fun hle => absurd hlt (Nat.not_lt.mpr hle)⟩⟩

theorem leads_addPred (hb : b.index < t.blocks.size) :
    Leads fault (onTour g t) (addPred b p) fun _ g' => g' = onTour g (t.enter b p) :=
  (leads_modifyBlock_iff hb).mpr rfl

theorem leads_finishBlock (hb : b.index < t.blocks.size) :
    Leads fault (onTour g t) (finishBlock b) fun _ g' => g' = onTour g (t.close b) := by
  unfold finishBlock
  rw [Leads.bind_iff, Leads.get_iff, Leads.bind_iff, leads_modifyBlock_iff hb, Leads.modify_iff]
  rfl

theorem leads_visitBlock (hg : fault ∨ g.Walkable) (hb : b.index < t.blocks.size) {pred : Option BlockId}
    {parent : Option Nat}
    (hnone : pred = none → parent = none)
    (hpred : ∀ p, pred = some p → p ≠ b ∧ ∃ k, t.blocks[p.index]? = some k ∧ k.preorderNumber = parent) :
    Leads fault (onTour g t) (visitBlock b pred) fun _ g' =>
      ∃ slots, Covers g slots (g.insts b) ∧ g' = onTour g (t.visit b pred parent slots) := by
  have hslots : Yields fault (assignedSlots g (g.insts b)) (Covers g · (g.insts b)) := assignedSlots_covers hg b
  have hsize (f : Block → Block) : b.index < (t.withBlock b f).blocks.size := by simpa [Tour.withBlock] using hb
  have hdone (pred : Option BlockId) (parent : Option Nat) (slots : NumberSet) (f : Block → Block)
      (hf : ∀ k, { f k with preorderNumber := some t.preorder.length } =
        { k with preds := pred.toList, preorderNumber := some t.preorder.length }) :
      onTour g { (t.withBlock b f).withBlock b fun k => { k with preorderNumber := some t.preorder.length } with
        preorder := t.preorder ++ [b], parents := t.parents.push parent, assigned := t.assigned.push slots } =
          onTour g (t.visit b pred parent slots) := by
    simp only [Tour.withBlock, modify_modify_block, hf, Tour.visit]
  unfold visitBlock
  rw [Leads.bind_iff, leads_modifyBlock_iff hb]
  cases pred with
  | none =>
    obtain rfl := hnone rfl
    simp only [Leads.pure_iff, Leads.bind_iff, Leads.get_iff, Leads.lift_iff, Leads.modify_iff]
    refine Yields.mono hslots fun slots _ hcov => ?_
    rw [leads_modifyBlock_iff (hsize _)]
    exact ⟨slots, hcov, hdone none none slots _ fun k => rfl⟩
  | some p =>
    obtain ⟨hne, k, hk, hnumber⟩ := hpred p rfl
    have hp : (onTour g ((t.withBlock b fun k => { k with preds := [] }).enter b p)).block p = .ok k := by
      rw [FlowGraph.block_eq_ok]
      simp only [onTour, Tour.enter, Tour.withBlock, getElem?_modify_block, hk, hne, Option.map_some, if_false]
    simp only [Leads.bind_iff]
    refine (leads_addPred (hsize _)).mono ?_
    rintro _ _ rfl
    simp only [Leads.pure_iff, Leads.get_iff, Leads.lift_iff, Leads.modify_iff, hp, Yields.ok_iff, hnumber]
    refine Yields.mono hslots fun slots _ hcov => ?_
    rw [leads_modifyBlock_iff (by simpa [Tour.enter, Tour.withBlock] using hb)]
    refine ⟨slots, hcov, ?_⟩
    rw [← hdone (some p) parent slots (fun k => { k with preds := [p] }) fun k => rfl]
    simp only [Tour.enter, Tour.withBlock, modify_modify_block]
    rfl

end Visits

/-! ## Depth first -/

section DepthFirst

variable {parents : Array (Option Nat)} {o : Option Nat} {edge edge' : Nat → Nat → Prop} {opened : List Nat}
  {m n k x u : Nat}

theorem up_push_iff : Up (parents.push o) n k ↔ if n = parents.size then o = some k else Up parents n k := by
  unfold Up
  rw [Array.getElem?_push]
  by_cases hn : n = parents.size <;> simp [hn]

theorem Above.push (h : Above parents x u) : Above (parents.push o) x u := by
  refine Relation.ReflTransGen.mono (fun n k hup => ?_) _ _ h
  have hlt : n < parents.size := by
    unfold Up at hup
    by_contra hle
    simp [Array.getElem?_eq_none (Nat.le_of_not_lt hle)] at hup
  rw [up_push_iff, if_neg (Nat.ne_of_lt hlt)]
  exact hup

theorem Above.of_push (hf : Falling parents) (hx : x < parents.size) (h : Above (parents.push o) x u) :
    Above parents x u := by
  induction h using Relation.ReflTransGen.head_induction_on with
  | refl => exact .refl
  | @head n k hup _ ih =>
    rw [up_push_iff, if_neg (Nat.ne_of_lt hx)] at hup
    exact (ih (Nat.lt_trans (hf n k hup) hx)).head hup

/-- Blocks are numbered depth first. Whatever was visited since a number that an open one was found below was found
below that number, too. -/
structure Deepening (parents : Array (Option Nat)) (edge : Nat → Nat → Prop) (opened : List Nat) : Prop where
  order : opened.Pairwise (· ≥ ·)
  bounded : ∀ m ∈ opened, m < parents.size
  below : ∀ m ∈ opened, ∀ u x, Above parents m u → u ≤ x → x < parents.size → Above parents x u
  forward : ∀ m n, edge m n → m < n → Above parents n m
  interval : ∀ a b x, Above parents b a → a ≤ x → x ≤ b → Above parents x a

theorem Deepening.close (h : Deepening parents edge (m :: opened)) : Deepening parents edge opened :=
  { h with
    order := h.order.of_cons
    bounded := fun k hk => h.bounded k (List.mem_cons_of_mem m hk)
    below := fun k hk => h.below k (List.mem_cons_of_mem m hk) }

theorem Deepening.enter (h : Deepening parents edge (m :: opened))
    (hedge : ∀ k n, edge' k n → k = m ∧ n < parents.size ∨ edge k n) : Deepening parents edge' (m :: opened) :=
  { h with
    forward := by
      intro k n hkn hlt
      obtain ⟨rfl, hn⟩ | hkn := hedge k n hkn
      · exact h.below k List.mem_cons_self k n .refl (Nat.le_of_lt hlt) hn
      · exact h.forward k n hkn hlt }

theorem Deepening.visit (h : Deepening parents edge (m :: opened)) (hf : Falling parents)
    (hedge : ∀ k n, edge' k n → k = m ∧ n = parents.size ∨ edge k n) :
    Deepening (parents.push (some m)) edge' (parents.size :: m :: opened) := by
  have hm : m < parents.size := h.bounded m List.mem_cons_self
  have hlink : Up (parents.push (some m)) parents.size m := by rw [up_push_iff, if_pos rfl]
  -- What is above an open number is above the last one, and so above the new number.
  have habove {k u : Nat} (hk : k ∈ m :: opened) (hu : Above parents k u) : Above parents m u := by
    have hkm : k ≤ m := (List.mem_cons.mp hk).elim Nat.le_of_eq ((List.pairwise_cons.mp h.order).1 k)
    exact h.below k hk u m hu (Nat.le_trans (hf.le hu) hkm) hm
  have hlast {u x : Nat} (hu : Above parents m u) (hux : u ≤ x) (hx : x ≤ parents.size) :
      Above (parents.push (some m)) x u := by
    obtain hlt | rfl := Nat.lt_or_eq_of_le hx
    · exact (h.below m List.mem_cons_self u x hu hux hlt).push
    · exact hu.push.head hlink
  have hnew {u : Nat} (hu : Above (parents.push (some m)) parents.size u) : u = parents.size ∨ Above parents m u := by
    obtain rfl | ⟨k, hk, hku⟩ := hu.cases_head
    · exact .inl rfl
    · rw [up_push_iff, if_pos rfl, Option.some_inj] at hk
      subst hk
      exact .inr (Above.of_push hf hm hku)
  have hnewest {u x : Nat} (hu : Above (parents.push (some m)) parents.size u) (hux : u ≤ x) (hx : x ≤ parents.size) :
      Above (parents.push (some m)) x u := by
    obtain rfl | hu := hnew hu
    · obtain rfl : x = parents.size := Nat.le_antisymm hx hux
      exact .refl
    · exact hlast hu hux hx
  constructor
  case order =>
    exact List.pairwise_cons.mpr ⟨fun k hk => Nat.le_of_lt (h.bounded k hk), h.order⟩
  case bounded =>
    intro k hk
    rw [Array.size_push]
    obtain rfl | hk := List.mem_cons.mp hk
    · exact Nat.lt_succ_self _
    · exact Nat.lt_succ_of_lt (h.bounded k hk)
  case below =>
    intro k hk u x hu hux hx
    rw [Array.size_push] at hx
    obtain rfl | hk := List.mem_cons.mp hk
    · exact hnewest hu hux (Nat.le_of_lt_succ hx)
    · exact hlast (habove hk (hu.of_push hf (h.bounded k hk))) hux (Nat.le_of_lt_succ hx)
  case forward =>
    intro k n hkn hlt
    obtain ⟨rfl, rfl⟩ | hkn := hedge k n hkn
    · exact .single hlink
    · exact (h.forward k n hkn hlt).push
  case interval =>
    intro a b x hab hax hxb
    obtain hlt | hle := Nat.lt_or_ge b parents.size
    · exact (h.interval a b x (hab.of_push hf hlt) hax hxb).push
    · obtain rfl | ⟨k, hk, -⟩ := hab.cases_head
      · obtain rfl : x = b := Nat.le_antisymm hxb hax
        exact .refl
      · obtain rfl : b = parents.size := by
          by_contra hne
          rw [up_push_iff, if_neg hne] at hk
          unfold Up at hk
          simp [Array.getElem?_eq_none hle] at hk
        exact hnewest hab hax hxb

end DepthFirst

/-! ## The whole walk -/

/-- What holds during the walk, while the blocks of `stack` have still to take some of their successors. -/
structure Touring (g : FlowGraph) (t : Tour) (stack : List (BlockId × List BlockId)) : Prop where
  size : t.blocks.size = g.blocks.size
  kept : ∀ (b : BlockId) (k : Block), t.blocks[b.index]? = some k → ∃ k', g.blocks[b.index]? = some k' ∧
    k.kind = k'.kind ∧ k.phis = k'.phis ∧ k.dominator = k'.dominator ∧ k.dominated = k'.dominated
  number : ∀ (b : BlockId) (k : Block) (n : Nat), t.blocks[b.index]? = some k →
    (k.preorderNumber = some n ↔ t.preorder[n]? = some b)
  closed : ∀ (b : BlockId) (k : Block) (n : Nat), t.blocks[b.index]? = some k →
    (k.postorderNumber = some n ↔ t.postorder[n]? = some b)
  inRange : ∀ b ∈ t.preorder, b.index < g.blocks.size
  opened : (stack.map (·.1) ++ t.postorder).Perm t.preorder
  /-- Every edge is in a predecessor list or has still to be taken. -/
  left : ∀ p rest, (p, rest) ∈ stack → ∀ b, (t.preds b).count p + rest.count b = (g.next p).count b
  taken : ∀ p ∈ t.postorder, ∀ b, (t.preds b).count p = (g.next p).count b
  known : ∀ b, ∀ p ∈ t.preds b, p ∈ t.preorder
  entry : t.preorder[0]? = some FlowGraph.graphEntry
  parents_size : t.parents.size = t.preorder.length
  parent : ∀ n, 0 < n → n < t.preorder.length → ∃ m, Up t.parents n m
  parent_pred : ∀ n m, Up t.parents n m →
    m < n ∧ ∃ p b, t.preorder[m]? = some p ∧ t.preorder[n]? = some b ∧ p ∈ t.preds b
  deepening : Deepening t.parents t.NumberEdge (stack.map fun e => t.preorder.idxOf e.1)
  assigned_size : t.assigned.size = t.preorder.length
  assigned : ∀ (n : Nat) (b : BlockId), t.preorder[n]? = some b →
    ∃ slots, t.assigned[n]? = some slots ∧ Covers g slots (g.insts b)

namespace Touring

variable {g : FlowGraph} {t : Tour} {stack : List (BlockId × List BlockId)} {b p : BlockId} {rest : List BlockId}

theorem exists_block (ht : Touring g t stack) (hb : b.index < g.blocks.size) :
    ∃ k, t.blocks[b.index]? = some k :=
  ⟨_, Array.getElem?_eq_getElem (ht.size ▸ hb)⟩

theorem mem_preorder_iff (ht : Touring g t stack) {k : Block} (hk : t.blocks[b.index]? = some k) :
    b ∈ t.preorder ↔ k.preorderNumber.isSome = true := by
  rw [List.mem_iff_getElem?, Option.isSome_iff_exists]
  exact exists_congr fun n => (ht.number b k n hk).symm

theorem nodup (ht : Touring g t stack) : t.preorder.Nodup := by
  rw [List.nodup_iff_injective_getElem]
  intro ⟨m, hm⟩ ⟨n, hn⟩ heq
  simp only at heq
  obtain ⟨k, hk⟩ := ht.exists_block (ht.inRange _ (List.getElem_mem hm))
  have hm' := (ht.number _ k m hk).mpr (List.getElem?_eq_getElem hm)
  have hn' := (ht.number _ k n hk).mpr (heq ▸ List.getElem?_eq_getElem hn)
  rw [hm', Option.some_inj] at hn'
  exact Fin.ext hn'

theorem idxOf_eq (ht : Touring g t stack) {n : Nat} (hn : t.preorder[n]? = some b) : t.preorder.idxOf b = n := by
  obtain ⟨hlt, rfl⟩ := List.getElem?_eq_some_iff.mp hn
  exact ht.nodup.idxOf_getElem n hlt

theorem mem_of_stack (ht : Touring g t stack) (h : (p, rest) ∈ stack) : p ∈ t.preorder :=
  ht.opened.subset (List.mem_append_left _ (List.mem_map_of_mem h))

theorem length_le (ht : Touring g t stack) : t.preorder.length ≤ g.blocks.size := by
  have hnodup : (t.preorder.map BlockId.index).Nodup :=
    ht.nodup.map fun _ _ h => BlockId.index_inj.mp h
  have hsub : t.preorder.map BlockId.index ⊆ List.range g.blocks.size := by
    intro n hn
    obtain ⟨b, hb, rfl⟩ := List.mem_map.mp hn
    exact List.mem_range.mpr (ht.inRange b hb)
  simpa using (List.subperm_of_subset hnodup hsub).length_le

theorem ne_of_head (ht : Touring g t ((b, rest) :: stack)) :
    (∀ q rest', (q, rest') ∈ stack → q ≠ b) ∧ b ∉ t.postorder := by
  have hnodup := ht.opened.nodup_iff.mpr ht.nodup
  rw [List.map_cons, List.cons_append, List.nodup_cons] at hnodup
  constructor
  · rintro q rest' hq rfl
    exact hnodup.1 (List.mem_append_left _ (List.mem_map.mpr ⟨(q, rest'), hq, rfl⟩))
  · exact fun hb => hnodup.1 (List.mem_append_right _ hb)

theorem close (ht : Touring g t ((b, []) :: stack)) : Touring g (t.close b) stack := by
  have hblocks (c : BlockId) : (t.close b).blocks[c.index]? = (t.blocks[c.index]?).map fun k =>
      if c = b then { k with postorderNumber := some t.postorder.length } else k :=
    getElem?_modify_block t.blocks b c _
  have hpreds (c : BlockId) : (t.close b).preds c = t.preds c := by
    unfold Tour.preds
    rw [hblocks]
    show (if c ∈ t.preorder then _ else _) = _
    congr 1
    cases t.blocks[c.index]? with
    | none => rfl
    | some k => by_cases hc : c = b <;> simp [hc]
  exact {
    size := by simpa [Tour.close, Tour.withBlock] using ht.size
    kept := by
      intro c k hk
      rw [hblocks] at hk
      obtain ⟨k', hk', rfl⟩ := Option.map_eq_some_iff.mp hk
      split <;> exact ht.kept c k' hk'
    number := by
      intro c k n hk
      rw [hblocks] at hk
      obtain ⟨k', hk', rfl⟩ := Option.map_eq_some_iff.mp hk
      rw [← show _ ↔ (t.close b).preorder[n]? = some c from ht.number c k' n hk']
      split <;> rfl
    closed := by
      intro c k n hk
      rw [hblocks] at hk
      obtain ⟨k', hk', rfl⟩ := Option.map_eq_some_iff.mp hk
      show _ ↔ (t.postorder ++ [b])[n]? = some c
      rw [getElem?_concat]
      by_cases hc : c = b
      · subst hc
        rw [if_pos rfl, Option.some_inj]
        constructor
        · rintro rfl
          rw [if_pos rfl]
        · intro hn
          split at hn
          case isTrue h => exact h.symm
          case isFalse => exact absurd (List.mem_of_getElem? hn) ht.ne_of_head.2
      · rw [if_neg hc, ht.closed c k' n hk']
        split
        case isTrue h => simp [h, Ne.symm hc]
        case isFalse => rfl
    inRange := ht.inRange
    opened := by
      refine List.Perm.trans ?_ ht.opened
      show (stack.map (·.1) ++ (t.postorder ++ [b])).Perm (b :: (stack.map (·.1) ++ t.postorder))
      rw [← List.append_assoc]
      exact List.perm_append_singleton _ _
    left := by
      intro p rest hp c
      rw [hpreds]
      exact ht.left p rest (List.mem_cons_of_mem _ hp) c
    taken := by
      intro p hp c
      rw [hpreds]
      obtain hp | hp := List.mem_append.mp hp
      · exact ht.taken p hp c
      · obtain rfl := List.mem_singleton.mp hp
        simpa using ht.left p [] List.mem_cons_self c
    known := fun c p hp => ht.known c p (hpreds c ▸ hp)
    entry := ht.entry
    parents_size := ht.parents_size
    parent := ht.parent
    parent_pred := by
      intro n m hup
      obtain ⟨hlt, q, c, hq, hc, hmem⟩ := ht.parent_pred n m hup
      exact ⟨hlt, q, c, hq, hc, by rwa [hpreds]⟩
    deepening := { ht.deepening.close with
      forward := fun m n ⟨q, c, hq, hc, hmem⟩ => ht.deepening.forward m n ⟨q, c, hq, hc, hpreds c ▸ hmem⟩ }
    assigned_size := ht.assigned_size
    assigned := ht.assigned }

theorem count_take {s : BlockId} (ht : Touring g t ((p, s :: rest) :: stack)) {preds : BlockId → List BlockId}
    (hcount : ∀ q c, (preds c).count q = (t.preds c).count q + if c = s ∧ q = p then 1 else 0) :
    (∀ q rest', (q, rest') ∈ (p, rest) :: stack → ∀ c, (preds c).count q + rest'.count c = (g.next q).count c) ∧
      ∀ q ∈ t.postorder, ∀ c, (preds c).count q = (g.next q).count c := by
  obtain ⟨hstack, hpost⟩ := ht.ne_of_head
  constructor
  · intro q rest' hq c
    rw [hcount]
    obtain heq | hq := List.mem_cons.mp hq
    · obtain ⟨rfl, rfl⟩ := Prod.mk.inj heq
      have hleft := ht.left q (s :: rest') List.mem_cons_self c
      by_cases hc : c = s
      · subst hc
        rw [List.count_cons_self] at hleft
        simp only [and_self, if_true]
        omega
      · rw [List.count_cons_of_ne (Ne.symm hc)] at hleft
        simp only [hc, false_and, if_false]
        omega
    · have hne : ¬ (c = s ∧ q = p) := fun h => hstack q rest' hq h.2
      rw [if_neg hne]
      exact ht.left q rest' (List.mem_cons_of_mem _ hq) c
  · intro q hq c
    have hne : ¬ (c = s ∧ q = p) := fun h => hpost (h.2 ▸ hq)
    rw [hcount, if_neg hne]
    exact ht.taken q hq c

theorem enter {s : BlockId} (ht : Touring g t ((p, s :: rest) :: stack)) (hs : s ∈ t.preorder) :
    Touring g (t.enter s p) ((p, rest) :: stack) := by
  have hblocks (c : BlockId) : (t.enter s p).blocks[c.index]? = (t.blocks[c.index]?).map fun k =>
      if c = s then { k with preds := withPred k.preds p } else k :=
    getElem?_modify_block t.blocks s c _
  have hpreds (c : BlockId) : ((t.enter s p).preds c).Perm (if c = s then p :: t.preds c else t.preds c) := by
    unfold Tour.preds
    rw [hblocks]
    show List.Perm (if c ∈ t.preorder then _ else _) _
    by_cases hc : c = s
    · subst hc
      obtain ⟨k, hk⟩ := ht.exists_block (ht.inRange c hs)
      simp only [hs, if_true, hk, Option.map_some, Option.getD_some]
      exact withPred_perm k.preds p
    · simp only [hc, if_false, Option.map_id']
      exact .refl _
  have hcount (q c : BlockId) : ((t.enter s p).preds c).count q =
      (t.preds c).count q + if c = s ∧ q = p then 1 else 0 := by
    rw [(hpreds c).count_eq]
    by_cases hc : c = s
    · by_cases hq : q = p
      · simp [hc, hq]
      · simp [hc, hq, Ne.symm hq]
    · simp [hc]
  exact {
    size := by simpa [Tour.enter, Tour.withBlock] using ht.size
    kept := by
      intro c k hk
      rw [hblocks] at hk
      obtain ⟨k', hk', rfl⟩ := Option.map_eq_some_iff.mp hk
      split <;> exact ht.kept c k' hk'
    number := by
      intro c k n hk
      rw [hblocks] at hk
      obtain ⟨k', hk', rfl⟩ := Option.map_eq_some_iff.mp hk
      rw [← show _ ↔ (t.enter s p).preorder[n]? = some c from ht.number c k' n hk']
      split <;> rfl
    closed := by
      intro c k n hk
      rw [hblocks] at hk
      obtain ⟨k', hk', rfl⟩ := Option.map_eq_some_iff.mp hk
      rw [← show _ ↔ (t.enter s p).postorder[n]? = some c from ht.closed c k' n hk']
      split <;> rfl
    inRange := ht.inRange
    opened := ht.opened
    left := (ht.count_take hcount).1
    taken := (ht.count_take hcount).2
    known := by
      intro c q hq
      have hq := (hpreds c).mem_iff.mp hq
      split at hq
      · obtain rfl | hq := List.mem_cons.mp hq
        · exact ht.mem_of_stack List.mem_cons_self
        · exact ht.known c q hq
      · exact ht.known c q hq
    entry := ht.entry
    parents_size := ht.parents_size
    parent := ht.parent
    parent_pred := by
      intro n m hup
      obtain ⟨hlt, q, c, hq, hc, hmem⟩ := ht.parent_pred n m hup
      refine ⟨hlt, q, c, hq, hc, (hpreds c).mem_iff.mpr ?_⟩
      split
      · exact List.mem_cons_of_mem p hmem
      · exact hmem
    deepening := by
      refine ht.deepening.enter fun m n ⟨q, c, hq, hc, hmem⟩ => ?_
      have hmem := (hpreds c).mem_iff.mp hmem
      split at hmem
      case isFalse => exact .inr ⟨q, c, hq, hc, hmem⟩
      case isTrue =>
        obtain rfl | hmem := List.mem_cons.mp hmem
        · refine .inl ⟨(ht.idxOf_eq hq).symm, ?_⟩
          rw [ht.parents_size]
          exact (List.getElem?_eq_some_iff.mp hc).1
        · exact .inr ⟨q, c, hq, hc, hmem⟩
    assigned_size := ht.assigned_size
    assigned := ht.assigned }

theorem visit {s : BlockId} {m : Nat} {slots : NumberSet} (ht : Touring g t ((p, s :: rest) :: stack))
    (hs : s ∉ t.preorder) (hrange : s.index < g.blocks.size) (hp : t.preorder[m]? = some p)
    (hslots : Covers g slots (g.insts s)) :
    Touring g (t.visit s (some p) (some m) slots) ((s, (g.next s).reverse) :: (p, rest) :: stack) := by
  have hps : p ∈ t.preorder := ht.mem_of_stack List.mem_cons_self
  have hm : m < t.preorder.length := (List.getElem?_eq_some_iff.mp hp).1
  have hblocks (c : BlockId) : (t.visit s (some p) (some m) slots).blocks[c.index]? = (t.blocks[c.index]?).map fun k =>
      if c = s then { k with preds := [p], preorderNumber := some t.preorder.length } else k :=
    getElem?_modify_block t.blocks s c _
  have hmem (c : BlockId) : c ∈ (t.visit s (some p) (some m) slots).preorder ↔ c ∈ t.preorder ∨ c = s := by
    simp [Tour.visit]
  have hpreds (c : BlockId) : (t.visit s (some p) (some m) slots).preds c = if c = s then [p] else t.preds c := by
    unfold Tour.preds
    rw [hblocks]
    by_cases hc : c = s
    · subst hc
      obtain ⟨k, hk⟩ := ht.exists_block hrange
      simp only [hmem, or_true, if_true, hk, Option.map_some, Option.getD_some]
    · simp only [hmem, hc, or_false, if_false, Option.map_id']
  have hnone : t.preds s = [] := by simp [Tour.preds, hs]
  have hcount (q c : BlockId) : ((t.visit s (some p) (some m) slots).preds c).count q =
      (t.preds c).count q + if c = s ∧ q = p then 1 else 0 := by
    rw [hpreds]
    by_cases hc : c = s
    · by_cases hq : q = p
      · simp [hc, hq, hnone]
      · simp [hc, hq, hnone, Ne.symm hq]
    · simp [hc]
  have hlast (n : Nat) : (t.visit s (some p) (some m) slots).preorder[n]? =
      if n = t.preorder.length then some s else t.preorder[n]? := getElem?_concat t.preorder s n
  have hup (n k : Nat) : Up (t.visit s (some p) (some m) slots).parents n k ↔
      if n = t.preorder.length then m = k else Up t.parents n k := by
    unfold Up Tour.visit
    rw [Array.getElem?_push, ht.parents_size]
    by_cases hn : n = t.preorder.length <;> simp [hn]
  exact {
    size := by simpa [Tour.visit] using ht.size
    kept := by
      intro c k hk
      rw [hblocks] at hk
      obtain ⟨k', hk', rfl⟩ := Option.map_eq_some_iff.mp hk
      split <;> exact ht.kept c k' hk'
    number := by
      intro c k n hk
      rw [hblocks] at hk
      obtain ⟨k', hk', rfl⟩ := Option.map_eq_some_iff.mp hk
      rw [hlast]
      by_cases hc : c = s
      · subst hc
        simp only [if_true, Option.some_inj]
        constructor
        · intro hn
          rw [if_pos hn.symm]
        · intro hn
          split at hn
          case isTrue h => exact h.symm
          case isFalse => exact absurd (List.mem_of_getElem? hn) hs
      · rw [if_neg hc, ht.number c k' n hk']
        split
        case isTrue h => simp [h, Ne.symm hc]
        case isFalse => rfl
    closed := by
      intro c k n hk
      rw [hblocks] at hk
      obtain ⟨k', hk', rfl⟩ := Option.map_eq_some_iff.mp hk
      rw [← show _ ↔ (t.visit s (some p) (some m) slots).postorder[n]? = some c from ht.closed c k' n hk']
      split <;> rfl
    inRange := by
      intro c hc
      obtain hc | rfl := (hmem c).mp hc
      · exact ht.inRange c hc
      · exact hrange
    opened := by
      show (s :: p :: (stack.map (·.1)) ++ t.postorder).Perm (t.preorder ++ [s])
      refine List.Perm.trans ?_ (List.perm_append_singleton s t.preorder).symm
      exact ht.opened.cons s
    left := by
      intro q rest' hq c
      rw [hcount]
      obtain heq | hq := List.mem_cons.mp hq
      · obtain ⟨rfl, rfl⟩ := Prod.mk.inj heq
        have hzero : (t.preds c).count q = 0 :=
          List.count_eq_zero.mpr fun h => hs (ht.known c q h)
        have hne : q ≠ p := fun h => hs (h ▸ hps)
        simp [hzero, hne]
      · rw [← hcount]
        exact (ht.count_take hcount).1 q rest' hq c
    taken := (ht.count_take hcount).2
    known := by
      intro c q hq
      rw [hpreds] at hq
      rw [hmem]
      split at hq
      · obtain rfl := List.mem_singleton.mp hq
        exact .inl hps
      · exact .inl (ht.known c q hq)
    entry := by
      rw [hlast, if_neg (by omega)]
      exact ht.entry
    parents_size := by simp [Tour.visit, ht.parents_size]
    parent := by
      intro n hpos hn
      simp only [hup]
      by_cases hlen : n = t.preorder.length
      · exact ⟨m, by simp [hlen]⟩
      · have hn' : n < t.preorder.length + 1 := by simpa [Tour.visit] using hn
        simpa [hlen] using ht.parent n hpos (by omega)
    parent_pred := by
      intro n k hk
      rw [hup] at hk
      simp only [hlast, hpreds]
      split at hk
      case isTrue hn =>
        subst hk
        exact ⟨by omega, p, s, by rw [if_neg (by omega), hp], by simp [hn], by simp⟩
      case isFalse hn =>
        obtain ⟨hlt, q, c, hq, hc, hqc⟩ := ht.parent_pred n k hk
        have hcs : c ≠ s := fun h => hs (h ▸ List.mem_of_getElem? hc)
        have hk' : k < t.preorder.length := (List.getElem?_eq_some_iff.mp hq).1
        exact ⟨hlt, q, c, by rw [if_neg (by omega), hq], by rw [if_neg hn, hc], by rwa [if_neg hcs]⟩
    deepening := by
      have hopened : (((s, (g.next s).reverse) :: (p, rest) :: stack).map fun e =>
          (t.visit s (some p) (some m) slots).preorder.idxOf e.1) =
            t.parents.size :: m :: stack.map fun e => t.preorder.idxOf e.1 := by
        have hidx (c : BlockId) (hc : c ∈ t.preorder) : (t.preorder ++ [s]).idxOf c = t.preorder.idxOf c :=
          List.idxOf_append_of_mem hc
        have hnew : (t.preorder ++ [s]).idxOf s = t.parents.size := by
          rw [List.idxOf_append_of_notMem hs, List.idxOf_cons_self, ht.parents_size, Nat.add_zero]
        show (t.preorder ++ [s]).idxOf s :: (t.preorder ++ [s]).idxOf p :: (stack.map fun e =>
          (t.preorder ++ [s]).idxOf e.1) = _
        rw [hnew, hidx p hps, ht.idxOf_eq hp]
        refine congrArg _ (congrArg _ (List.map_congr_left fun e he => hidx e.1 ?_))
        exact ht.mem_of_stack (List.mem_cons_of_mem _ he)
      rw [hopened]
      refine @Deepening.visit _ t.NumberEdge _ _ _ ?_ (fun n k hup => (ht.parent_pred n k hup).1) ?_
      · have hdeep := ht.deepening
        rwa [List.map_cons, ht.idxOf_eq hp] at hdeep
      · rintro k n ⟨q, c, hq, hc, hmem⟩
        rw [hlast] at hq hc
        rw [hpreds] at hmem
        split at hmem
        case isTrue hcs =>
          obtain rfl := List.mem_singleton.mp hmem
          subst hcs
          split at hc
          case isFalse => exact absurd (List.mem_of_getElem? hc) hs
          case isTrue hn =>
            split at hq
            case isTrue => exact absurd (Option.some_inj.mp hq ▸ hps) hs
            case isFalse => exact .inl ⟨by rw [← ht.idxOf_eq hq, ht.idxOf_eq hp], by rw [hn, ht.parents_size]⟩
        case isFalse hcs =>
          split at hc
          case isTrue => exact absurd (Option.some_inj.mp hc).symm hcs
          case isFalse =>
            split at hq
            case isTrue => exact absurd (ht.known c q hmem) (Option.some_inj.mp hq ▸ hs)
            case isFalse => exact .inr ⟨q, c, hq, hc, hmem⟩
    assigned_size := by simp [Tour.visit, ht.assigned_size]
    assigned := by
      intro n c hc
      rw [hlast] at hc
      have hpush : (t.visit s (some p) (some m) slots).assigned[n]? =
          if n = t.preorder.length then some slots else t.assigned[n]? := by
        rw [← ht.assigned_size]
        exact Array.getElem?_push
      rw [hpush]
      split at hc
      case isTrue hn =>
        obtain rfl := Option.some_inj.mp hc
        exact ⟨slots, by rw [if_pos hn], hslots⟩
      case isFalse hn =>
        obtain ⟨slots', hslots', hcov⟩ := ht.assigned n c hc
        exact ⟨slots', by rw [if_neg hn, hslots'], hcov⟩ }

theorem mem_next (ht : Touring g t stack) (hp : (p, rest) ∈ stack) {s : BlockId} (hs : s ∈ rest) :
    s ∈ g.next p := by
  have hleft := ht.left p rest hp s
  have hpos : 0 < rest.count s := List.count_pos_iff.mpr hs
  exact List.count_pos_iff.mp (by omega)

end Touring

theorem leads_walk {fault : Prop} {g : FlowGraph} (hg : fault ∨ g.Walkable) {steps : Nat} {t : Tour}
    {stack : List (BlockId × List BlockId)} (ht : Touring g t stack)
    (hsteps : (stack.map fun e => 1 + e.2.length).sum + 3 * (g.blocks.size - t.preorder.length) ≤ steps) :
    Leads fault (onTour g t) (walk steps stack) fun _ g' => ∃ t', g' = onTour g t' ∧ Touring g t' [] := by
  induction steps generalizing t stack with
  | zero =>
    match stack, ht with
    | [], ht => exact ⟨t, rfl, ht⟩
    | e :: stack, _ =>
      rw [List.map_cons, List.sum_cons] at hsteps
      omega
  | succ steps ih =>
    match stack, ht with
    | [], ht => exact ⟨t, rfl, ht⟩
    | (b, []) :: stack, ht =>
      have hb : b.index < t.blocks.size := ht.size ▸ ht.inRange b (ht.mem_of_stack List.mem_cons_self)
      rw [walk, Leads.bind_iff]
      refine (leads_finishBlock hb).mono ?_
      rintro _ _ rfl
      refine ih ht.close ?_
      simp only [List.map_cons, List.sum_cons, List.length_nil] at hsteps
      show _ + 3 * (g.blocks.size - t.preorder.length) ≤ steps
      omega
    | (b, s :: rest) :: stack, ht =>
      have hnext : s ∈ g.next b := ht.mem_next List.mem_cons_self List.mem_cons_self
      simp only [List.map_cons, List.sum_cons, List.length_cons] at hsteps
      rw [walk, Leads.bind_iff, Leads.get_iff, Leads.bind_iff, Leads.lift_iff]
      refine Yields.of_ok_or (hg.imp_right fun h => ?_) fun k hblock => ?_
      · obtain ⟨k, hk⟩ := ht.exists_block (h.successors b s hnext)
        exact ⟨k, FlowGraph.block_eq_ok.mpr hk⟩
      have hk : t.blocks[s.index]? = some k := FlowGraph.block_eq_ok.mp hblock
      have hs : s.index < g.blocks.size := ht.size ▸ (Array.getElem?_eq_some_iff.mp hk).1
      split
      case isTrue hsome =>
        have hmem : s ∈ t.preorder := (ht.mem_preorder_iff hk).mpr hsome
        rw [Leads.bind_iff]
        refine (leads_addPred (ht.size ▸ hs)).mono ?_
        rintro _ _ rfl
        refine ih (ht.enter hmem) ?_
        simp only [List.map_cons, List.sum_cons]
        show _ + 3 * (g.blocks.size - t.preorder.length) ≤ steps
        omega
      case isFalse hnone =>
        have hnew : s ∉ t.preorder := fun h => hnone ((ht.mem_preorder_iff hk).mp h)
        have hbmem : b ∈ t.preorder := ht.mem_of_stack List.mem_cons_self
        obtain ⟨m, hm⟩ := List.mem_iff_getElem?.mp hbmem
        obtain ⟨kb, hkb⟩ := ht.exists_block (ht.inRange b hbmem)
        have hnumber : kb.preorderNumber = some m := (ht.number b kb m hkb).mpr hm
        have hparent : ∀ p, some b = some p →
            p ≠ s ∧ ∃ k, t.blocks[p.index]? = some k ∧ k.preorderNumber = some m := by
          rintro p ⟨⟩
          exact ⟨fun h => hnew (h ▸ hbmem), kb, hkb, hnumber⟩
        rw [Leads.bind_iff]
        refine (leads_visitBlock hg (ht.size ▸ hs) (fun h => by simp at h) hparent).mono ?_
        · rintro _ _ ⟨slots, hslots, rfl⟩
          have ht' := ht.visit hnew hs hm hslots
          have hroom := ht'.length_le
          have hentry : s ≠ FlowGraph.graphEntry := fun h => hnew (h ▸ List.mem_of_getElem? ht.entry)
          have htwo := FlowGraph.length_next_le (g := g) hentry
          have hlen : (t.visit s (some b) (some m) slots).preorder.length = t.preorder.length + 1 := by
            simp [Tour.visit]
          rw [Leads.bind_iff, Leads.get_iff, Leads.bind_iff, Leads.lift_iff]
          refine Yields.of_ok_or (hg.imp_right fun h => h.succs_eq s) fun ss hss => ?_
          obtain rfl : g.next s = ss := FlowGraph.next_of_ok hss
          refine ih ht' ?_
          simp only [List.map_cons, List.sum_cons, List.length_reverse]
          omega

def atStart (g : FlowGraph) : Tour where
  blocks := g.blocks.map fun k => { k with preorderNumber := none, postorderNumber := none }
  preorder := []
  postorder := []
  parents := #[]
  assigned := #[]

theorem touring_entry {g : FlowGraph} (hsize : FlowGraph.graphEntry.index < g.blocks.size) {slots : NumberSet}
    (hslots : Covers g slots (g.insts FlowGraph.graphEntry)) :
    Touring g ((atStart g).visit FlowGraph.graphEntry none none slots)
      [(FlowGraph.graphEntry, (g.next FlowGraph.graphEntry).reverse)] := by
  have hblocks (c : BlockId) : ((atStart g).visit FlowGraph.graphEntry none none slots).blocks[c.index]? =
      (g.blocks[c.index]?).map fun k => if c = FlowGraph.graphEntry
        then { k with preds := [], preorderNumber := some 0, postorderNumber := none }
        else { k with preorderNumber := none, postorderNumber := none } := by
    have h := getElem?_modify_block (atStart g).blocks FlowGraph.graphEntry c fun k =>
      { k with preds := [], preorderNumber := some 0 }
    simp only [atStart, Array.getElem?_map, Option.map_map] at h
    refine h.trans (congrArg (Option.map · _) ?_)
    funext k
    by_cases hc : c = FlowGraph.graphEntry <;> simp [hc]
  have hpreds (c : BlockId) : ((atStart g).visit FlowGraph.graphEntry none none slots).preds c = [] := by
    unfold Tour.preds
    split
    case isTrue hc =>
      obtain rfl : c = FlowGraph.graphEntry := by simpa [Tour.visit, atStart] using hc
      rw [hblocks]
      cases g.blocks[FlowGraph.graphEntry.index]? <;> simp
    case isFalse => rfl
  exact {
    size := by simp [Tour.visit, atStart]
    kept := by
      intro c k hk
      rw [hblocks] at hk
      obtain ⟨k', hk', rfl⟩ := Option.map_eq_some_iff.mp hk
      refine ⟨k', hk', ?_⟩
      split <;> exact ⟨rfl, rfl, rfl, rfl⟩
    number := by
      intro c k n hk
      rw [hblocks] at hk
      obtain ⟨k', -, rfl⟩ := Option.map_eq_some_iff.mp hk
      have hpre : ((atStart g).visit FlowGraph.graphEntry none none slots).preorder = [FlowGraph.graphEntry] := rfl
      rw [hpre]
      by_cases hc : c = FlowGraph.graphEntry
      · cases n <;> simp [hc]
      · cases n <;> simp [hc, Ne.symm hc]
    closed := by
      intro c k n hk
      rw [hblocks] at hk
      obtain ⟨k', -, rfl⟩ := Option.map_eq_some_iff.mp hk
      have hpost : ((atStart g).visit FlowGraph.graphEntry none none slots).postorder = [] := rfl
      rw [hpost]
      split <;> simp
    inRange := by
      intro c hc
      obtain rfl : c = FlowGraph.graphEntry := by simpa [Tour.visit, atStart] using hc
      exact hsize
    opened := by simp [Tour.visit, atStart]
    left := by
      intro p rest hp c
      obtain ⟨rfl, rfl⟩ := Prod.mk.inj (List.mem_singleton.mp hp)
      simp [hpreds]
    taken := by simp [Tour.visit, atStart]
    known := by simp [hpreds]
    entry := rfl
    parents_size := rfl
    parent := by
      intro n hpos hn
      simp [Tour.visit, atStart] at hn
      omega
    parent_pred := by
      intro n m hup
      cases n <;> simp [Up, Tour.visit, atStart] at hup
    deepening := by
      have hnone {n k : Nat} : ¬ Up #[none] n k := by
        cases n <;> simp [Up]
      have hrefl {n k : Nat} (h : Above #[none] n k) : n = k :=
        h.cases_head.elim id fun ⟨_, hup, _⟩ => absurd hup hnone
      refine ⟨List.pairwise_singleton _ _, fun m hm => ?_, fun m _ u x hu hux hx => ?_, fun m n h _ => ?_,
        fun a b x hab hax hxb => ?_⟩
      · obtain rfl := List.mem_singleton.mp hm
        exact Nat.one_pos
      · have hx : x < 1 := hx
        obtain rfl : u = x := by omega
        exact .refl
      · obtain ⟨q, c, -, -, hmem⟩ := h
        rw [hpreds] at hmem
        cases hmem
      · obtain rfl := hrefl hab
        obtain rfl : x = b := Nat.le_antisymm hxb hax
        exact .refl
    assigned_size := rfl
    assigned := by
      intro n c hc
      cases n with
      | zero =>
        obtain rfl : FlowGraph.graphEntry = c := Option.some_inj.mp hc
        exact ⟨slots, rfl, hslots⟩
      | succ n => simp [Tour.visit, atStart] at hc }

/-- Discovery ends with every edge from a visited block taken. -/
theorem leads_discover {fault : Prop} {g : FlowGraph} (hg : fault ∨ g.Walkable) :
    Leads fault g discover fun _ g' => ∃ t, g' = onTour g t ∧ Touring g t [] := by
  unfold discover forgetOrder
  rw [Leads.bind_iff, Leads.modify_iff, Leads.bind_iff]
  by_cases hsize : FlowGraph.graphEntry.index < g.blocks.size
  case neg =>
    unfold visitBlock
    rw [Leads.bind_iff, Leads.modifyBlock_iff]
    refine ⟨fun h => absurd (by simpa using h) hsize, fun _ => hg.resolve_right fun h => hsize h.entry⟩
  refine (leads_visitBlock (t := atStart g) hg (by simpa [atStart] using hsize) (fun _ => rfl)
    fun p hp => by simp at hp).mono ?_
  rintro _ _ ⟨slots, hslots, rfl⟩
  have ht := touring_entry hsize hslots
  rw [Leads.bind_iff, Leads.get_iff, Leads.bind_iff, Leads.lift_iff]
  refine Yields.of_ok_or (hg.imp_right fun h => h.succs_eq _) fun ss hss => ?_
  obtain rfl : g.next FlowGraph.graphEntry = ss := FlowGraph.next_of_ok hss
  refine leads_walk hg ht ?_
  have hbound : walkBound (onTour g ((atStart g).visit FlowGraph.graphEntry none none slots)) =
      3 * g.blocks.size + g.catchEntries.length + 1 := by
    simp [walkBound, onTour, Tour.visit, atStart]
  have hone : ((atStart g).visit FlowGraph.graphEntry none none slots).preorder.length = 1 := rfl
  have hnext : g.next FlowGraph.graphEntry = FlowGraph.normalEntry :: g.catchEntries :=
    FlowGraph.next_of_ok (by simp [FlowGraph.succs, pure, Except.pure])
  rw [hbound, hone, hnext]
  simp
  omega

end Flow

end Midend
