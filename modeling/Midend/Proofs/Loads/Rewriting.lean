import Midend.Loads
import Midend.Proofs.Execution.Definite
import Midend.Proofs.Graph.Changes

/-! # Graphs that loads are taken out of

While loads are eliminated the graph changes: the uses of a load are redirected, the load is taken out, and phis come
and go. Here it is said what these changes keep, compared to the graph `g` that the elimination began with.
-/

namespace Midend

theorem Inst.args_mapArgs_const {d : Inst} {f : InstId → InstId} : (d.mapArgs fun _ => f).args = d.args.map f := by
  rw [args_mapArgs, List.mapIdx_eq_zipIdx_map]
  conv_rhs => rw [← List.zipIdx_map_fst 0 d.args, List.map_map]
  rfl

namespace Loads

open Midend.Flow FlowGraph Ssa Execution

variable {g h h' : FlowGraph} {ρ κ : InstId → InstId} {b c : BlockId} {d i old new phi : InstId} {n : Node}

/-! ## Use lists -/

def Counts (g h : FlowGraph) (u : InstId) : Prop :=
  (∃ b, g.Reachable b ∧ u ∈ h.insts b) ∨ (∃ b, g.Reachable b ∧ LivePhi g b u) ∨
    g.nodes.size ≤ u.index ∧ ∃ n, h.nodes[u.index]? = some n ∧ n.block ≠ none

/-- Instructions that are executed, and phis that were made. -/
def Traced (g : FlowGraph) (d : InstId) : Prop := (∃ b, g.Reachable b ∧ d ∈ g.insts b) ∨ g.nodes.size ≤ d.index

/-- Only nodes have changed, and none of them has moved. -/
structure SameShape (h h' : FlowGraph) : Prop where
  layout : h'.layout = h.layout
  blocks : h'.blocks = h.blocks
  catchEntries : h'.catchEntries = h.catchEntries
  postorder : h'.postorder = h.postorder
  initial : h'.initialDefinitions = h.initialDefinitions
  nodes : Changes h h' fun _ n n' => n'.block = n.block

theorem SameShape.trans {h'' : FlowGraph} (hs : SameShape h h') (hs' : SameShape h' h'') : SameShape h h'' where
  layout := hs'.layout.trans hs.layout
  blocks := hs'.blocks.trans hs.blocks
  catchEntries := hs'.catchEntries.trans hs.catchEntries
  postorder := hs'.postorder.trans hs.postorder
  initial := hs'.initial.trans hs.initial
  nodes := hs.nodes.trans hs'.nodes fun _ _ _ _ heq heq' => heq'.trans heq

theorem SameShape.counts_iff (hs : SameShape h h') {u : InstId} : Counts g h' u ↔ Counts g h u := by
  unfold Counts FlowGraph.insts
  rw [hs.layout]
  refine or_congr .rfl (or_congr .rfl (and_congr_right fun _ => ?_))
  constructor
  · rintro ⟨n', hn', hblock⟩
    obtain ⟨n, hn, hsame⟩ := hs.nodes.node u n' hn'
    exact ⟨n, hn, hsame ▸ hblock⟩
  · rintro ⟨n, hn, hblock⟩
    obtain ⟨n', hn', hsame⟩ := hs.nodes.exists_node hn
    exact ⟨n', hn', hsame ▸ hblock⟩

/-- The use lists of traced definitions are right, as far as the uses count. -/
structure UsesRight (g h : FlowGraph) : Prop where
  listed : ∀ (u : InstId) (n : Node) (k : Nat) (d : InstId), Counts g h u → h.nodes[u.index]? = some n →
    n.inst.args[k]? = some d → ∃ m, h.nodes[d.index]? = some m ∧ (⟨u, k⟩ : Use) ∈ m.inputUses
  exact : ∀ (d : InstId) (m : Node) (u : Use) (n : Node), Traced g d → h.nodes[d.index]? = some m → u ∈ m.inputUses →
    Counts g h u.user → h.nodes[u.user.index]? = some n → n.inst.args[u.index]? = some d
  bounded : ∀ (d : InstId) (m : Node) (u : Use), Traced g d → h.nodes[d.index]? = some m → u ∈ m.inputUses →
    u.user.index < h.nodes.size

namespace UsesRight

theorem of_definite (hg : Definite g) : UsesRight g g := by
  have hcounts (u : InstId) (n : Node) (hu : Counts g g u) (hn : g.nodes[u.index]? = some n) :
      g.OperandsHold u n ∧ (n.inst.opcode = .phi → n.inst.isAlivePhi = true) := by
    obtain ⟨b, hb, hu⟩ | ⟨b, hb, hu⟩ | ⟨hlt, -⟩ := hu
    · obtain ⟨m, last, hm, -, hholds⟩ := hg.inst_holds hb hu
      obtain rfl := Option.some_inj.mp (hn.symm.trans hm)
      exact ⟨hholds.operands, fun hphi => absurd hphi (hg.phisApart.opcode_ne_phi hg.located hu hn)⟩
    · obtain ⟨-, m, hm, hoperands⟩ := hg.phi_holds hb hu
      obtain rfl := Option.some_inj.mp (hn.symm.trans hm)
      obtain ⟨m, hm, halive⟩ := Definite.exists_alive hu
      obtain rfl := Option.some_inj.mp (hn.symm.trans hm)
      exact ⟨hoperands, fun _ => halive⟩
    · exact absurd (Array.getElem?_eq_some_iff.mp hn).1 (Nat.not_lt.mpr hlt)
  have huses (d : InstId) (m : Node) (hd : Traced g d) (hm : g.nodes[d.index]? = some m) :
      ∀ u ∈ m.inputUses, g.UseHolds d u := by
    obtain ⟨b, hb, hd⟩ | hlt := hd
    · exact (hcounts d m (.inl ⟨b, hb, hd⟩) hm).1.uses
    · exact absurd (Array.getElem?_eq_some_iff.mp hm).1 (Nat.not_lt.mpr hlt)
  refine ⟨fun u n k d hu hn hk => ((hcounts u n hu hn).1.inputs k d hk).listed, fun d m u n hd hm hu hcount hn => ?_,
    fun d m u hd hm hu => ?_⟩
  · obtain ⟨n', hn', hwhat⟩ := huses d m hd hm u hu
    obtain rfl := Option.some_inj.mp (hn.symm.trans hn')
    obtain ⟨hphi, hdead⟩ | ⟨-, harg⟩ := hwhat
    · rw [(hcounts u.user n hcount hn).2 hphi] at hdead
      cases hdead
    · exact harg
  · obtain ⟨n, hn, -⟩ := huses d m hd hm u hu
    exact (Array.getElem?_eq_some_iff.mp hn).1

theorem narrow (huses : UsesRight g h)
    (hc : Changes h h' fun _ n n' => n'.inst.args = n.inst.args ∧ n'.inputUses ⊆ n.inputUses ∧
      ∀ u ∈ n.inputUses, Counts g h' u.user → u ∈ n'.inputUses)
    (hcounts : ∀ u, Counts g h' u → Counts g h u) : UsesRight g h' where
  listed u n' k d hu hn' hk := by
    obtain ⟨n, hn, hargs, -⟩ := hc.node u n' hn'
    obtain ⟨m, hm, hmem⟩ := huses.listed u n k d (hcounts u hu) hn (hargs ▸ hk)
    obtain ⟨m', hm', -, -, hkeep⟩ := hc.exists_node hm
    exact ⟨m', hm', hkeep _ hmem hu⟩
  exact d m' u n' hd hm' hu hcount hn' := by
    obtain ⟨n, hn, hargs, -⟩ := hc.node u.user n' hn'
    obtain ⟨m, hm, -, hsub, -⟩ := hc.node d m' hm'
    rw [hargs]
    exact huses.exact d m u n hd hm (hsub hu) (hcounts _ hcount) hn
  bounded d m' u hd hm' hu := by
    obtain ⟨m, hm, -, hsub, -⟩ := hc.node d m' hm'
    rw [hc.size]
    exact huses.bounded d m u hd hm (hsub hu)

theorem congr (huses : UsesRight g h) (hs : SameShape h h')
    (hc : Changes h h' fun _ n n' => n'.inst.args = n.inst.args ∧ n'.inputUses = n.inputUses) : UsesRight g h' :=
  huses.narrow (hc.mono fun _ _ _ ⟨hargs, heq⟩ =>
  ⟨hargs, by rw [heq]; exact List.Subset.refl _, fun u hu _ => heq ▸ hu⟩)
    fun _ => hs.counts_iff.mp

end UsesRight

/-! ## Redirecting uses -/

def instead (old new d : InstId) : InstId := if d = old then new else d

@[simp] theorem instead_self : instead old new old = new := if_pos rfl

theorem instead_of_ne (hne : d ≠ old) : instead old new d = d := if_neg hne

@[simp] theorem instead_same : instead old old d = d := by
  unfold instead
  split
  · exact (‹d = old›).symm
  · rfl

@[simp] theorem instead_new : instead old new new = new := by
  unfold instead
  split <;> rfl

theorem changes_redirected {us es : List Use} : Changes h (h.redirected old new us es) fun j n n' =>
    n'.inst = n.inst.mapArgs (fun k a => if (⟨j, k⟩ : Use) ∈ us then new else a) ∧ n'.block = n.block ∧
      n'.replacement = n.replacement ∧
      n'.inputUses = if j = old then [] else if j = new then n.inputUses ++ us else n.inputUses := by
  refine Changes.mapNodes (f := fun j n => ((n.redirectInputs us new j).redirectEnv es new j).takeOver old new us es j)
    rfl fun j n => ?_
  unfold Node.takeOver
  by_cases hold : j = old
  · rw [if_pos hold, if_pos hold]
    exact ⟨rfl, rfl, rfl, rfl⟩
  · rw [if_neg hold, if_neg hold]
    split <;> exact ⟨rfl, rfl, rfl, rfl⟩

theorem sameShape_redirected {us es : List Use} : SameShape h (h.redirected old new us es) :=
  ⟨rfl, rfl, rfl, rfl, rfl, changes_redirected.mono fun _ _ _ hc => hc.2.1⟩

namespace UsesRight

theorem inst_redirected (huses : UsesRight g h) (hold : Traced g old) (hn : h.nodes[old.index]? = some n)
    {u : InstId} {m m' : Node} (hu : Counts g h u) (hm : h.nodes[u.index]? = some m)
    (hinst : m'.inst = m.inst.mapArgs fun k a => if (⟨u, k⟩ : Use) ∈ n.inputUses then new else a) :
    m'.inst = m.inst.mapArgs fun _ => instead old new := by
  rw [hinst]
  refine Inst.mapArgs_congr fun k a ha => ?_
  by_cases heq : a = old
  · obtain ⟨o, ho, hmem⟩ := huses.listed u m k a hu hm ha
    subst heq
    obtain rfl := Option.some_inj.mp (hn.symm.trans ho)
    rw [if_pos hmem, instead_self]
  · rw [if_neg, instead_of_ne heq]
    intro hmem
    exact heq (Option.some_inj.mp (ha.symm.trans (huses.exact old n ⟨u, k⟩ m hold hn hmem hu hm)))

theorem redirected (huses : UsesRight g h) (hold : Traced g old) (hn : h.nodes[old.index]? = some n)
    (hne : old ≠ new) (hnew : new.index < h.nodes.size) {es : List Use} :
    UsesRight g (h.redirected old new n.inputUses es) := by
  have hchange := @changes_redirected h old new n.inputUses es
  have hcounts (u : InstId) : Counts g (h.redirected old new n.inputUses es) u → Counts g h u :=
    sameShape_redirected.counts_iff.mp
  refine ⟨fun u m' k d hu hm' hk => ?_, fun d m' u l' hd hm' hu hcount hl' => ?_, fun d m' u hd hm' hu => ?_⟩
  · obtain ⟨m, hm, hinst, -⟩ := hchange.node u m' hm'
    rw [huses.inst_redirected hold hn (hcounts u hu) hm hinst, Inst.args_mapArgs_const, List.getElem?_map] at hk
    obtain ⟨a, ha, rfl⟩ := Option.map_eq_some_iff.mp hk
    obtain ⟨o, ho, hmem⟩ := huses.listed u m k a (hcounts u hu) hm ha
    by_cases heq : a = old
    · subst heq
      obtain rfl := Option.some_inj.mp (hn.symm.trans ho)
      obtain ⟨o', ho', -, -, -, huses'⟩ := hchange.exists_node (Array.getElem?_eq_getElem hnew)
      refine ⟨o', by rw [instead_self]; exact ho', ?_⟩
      rw [huses', if_neg (Ne.symm hne), if_pos rfl]
      exact List.mem_append_right _ hmem
    · obtain ⟨o', ho', -, -, -, huses'⟩ := hchange.exists_node ho
      refine ⟨o', by rw [instead_of_ne heq]; exact ho', ?_⟩
      rw [huses', if_neg heq]
      split
      · exact List.mem_append_left _ hmem
      · exact hmem
  · obtain ⟨l, hl, hinst, -⟩ := hchange.node u.user l' hl'
    obtain ⟨m, hm, -, -, -, huses'⟩ := hchange.node d m' hm'
    rw [huses'] at hu
    rw [huses.inst_redirected hold hn (hcounts _ hcount) hl hinst, Inst.args_mapArgs_const, List.getElem?_map]
    by_cases hdold : d = old
    · rw [if_pos hdold] at hu
      cases hu
    rw [if_neg hdold] at hu
    have hkeep (hmem : u ∈ m.inputUses) : (l.inst.args[u.index]?).map (instead old new) = some d := by
      rw [huses.exact d m u l hd hm hmem (hcounts _ hcount) hl, Option.map_some, instead_of_ne hdold]
    split at hu
    case isFalse => exact hkeep hu
    case isTrue hdnew =>
      obtain hmem | hmem := List.mem_append.mp hu
      · exact hkeep hmem
      · rw [huses.exact old n u l hold hn hmem (hcounts _ hcount) hl, Option.map_some, instead_self, hdnew]
  · obtain ⟨m, hm, -, -, -, huses'⟩ := hchange.node d m' hm'
    rw [hchange.size]
    rw [huses'] at hu
    split at hu
    · cases hu
    · split at hu
      · obtain hmem | hmem := List.mem_append.mp hu
        · exact huses.bounded d m u hd hm hmem
        · exact huses.bounded old n u hold hn hmem
      · exact huses.bounded d m u hd hm hu

end UsesRight

/-! ## Setting an input -/

section

variable {user a : InstId} {k : Nat}

theorem changes_rewired : Changes h (h.rewired user k a d) fun j n n' =>
    n'.inst = (if j = user then n.inst.setArg k d else n.inst) ∧ n'.block = n.block ∧
      n'.inputUses = (if j = a then n.inputUses.filter (· != ⟨user, k⟩) else n.inputUses) ++
        if j = d then [⟨user, k⟩] else [] :=
  .rewired fun _ _ => ⟨rfl, rfl, rfl⟩

theorem sameShape_rewired : SameShape h (h.rewired user k a d) :=
  ⟨rfl, rfl, rfl, rfl, rfl, changes_rewired.mono fun _ _ _ hc => hc.2.1⟩

theorem getElem?_args_rewired {j : InstId} {m m' : Node}
    (hinst : m'.inst = if j = user then m.inst.setArg k d else m.inst) (l : Nat) : m'.inst.args[l]? = if j = user ∧
    l = k then (m.inst.args[l]?).map fun _ => d else m.inst.args[l]? := by
  rw [hinst]
  by_cases hj : j = user
  · rw [if_pos hj, Inst.setArg_eq, Inst.args_mapArgs, List.getElem?_mapIdx]
    by_cases hl : l = k <;> simp [hj, hl]
  · rw [if_neg hj, if_neg fun h => hj h.1]

theorem UsesRight.rewired (huses : UsesRight g h) (hn : h.nodes[user.index]? = some n) (ha : n.inst.args[k]? = some a)
    (hd : d.index < h.nodes.size) : UsesRight g (h.rewired user k a d) := by
  have hchange := @changes_rewired h d user a k
  have hcounts (u : InstId) : Counts g (h.rewired user k a d) u → Counts g h u := sameShape_rewired.counts_iff.mp
  refine ⟨fun u m' l e hu hm' he => ?_, fun e o' u m' htraced ho' hmem hcount hm' => ?_, fun e o' u htraced ho' hmem =>
    ?_⟩
  · obtain ⟨m, hm, hinst, -⟩ := hchange.node u m' hm'
    rw [getElem?_args_rewired hinst] at he
    split at he
    case isTrue hset =>
      obtain ⟨rfl, rfl⟩ := hset
      obtain ⟨-, -, rfl⟩ := Option.map_eq_some_iff.mp he
      obtain ⟨o', ho', -, -, heq⟩ := hchange.exists_node (Array.getElem?_eq_getElem hd)
      refine ⟨o', ho', ?_⟩
      rw [heq, if_pos rfl]
      exact List.mem_append_right _ (List.mem_singleton_self _)
    case isFalse hset =>
      obtain ⟨o, ho, hmem⟩ := huses.listed u m l e (hcounts u hu) hm he
      obtain ⟨o', ho', -, -, heq⟩ := hchange.exists_node ho
      have hother : (⟨u, l⟩ : Use) ≠ ⟨user, k⟩ := fun h => hset (Use.mk.inj h)
      refine ⟨o', ho', ?_⟩
      rw [heq]
      refine List.mem_append_left _ ?_
      split
      · exact List.mem_filter.mpr ⟨hmem, bne_iff_ne.mpr hother⟩
      · exact hmem
  · obtain ⟨m, hm, hinst, -⟩ := hchange.node u.user m' hm'
    obtain ⟨o, ho, -, -, heq⟩ := hchange.node e o' ho'
    have hold (hmem : u ∈ o.inputUses) : m.inst.args[u.index]? = some e :=
      huses.exact e o u m htraced ho hmem (hcounts _ hcount) hm
    rw [getElem?_args_rewired hinst]
    rw [heq, List.mem_append] at hmem
    split
    case isTrue hset =>
      obtain ⟨huser, hindex⟩ := hset
      obtain rfl := Option.some_inj.mp (hn.symm.trans (huser ▸ hm))
      rw [hindex, ha, Option.map_some]
      obtain hmem | hmem := hmem
      · -- The use that was listed for the old input is gone.
        have hnot : (⟨user, k⟩ : Use) = u := by rw [← huser, ← hindex]
        split at hmem
        case isTrue => simp [hnot] at hmem
        case isFalse hne => exact absurd (Option.some_inj.mp ((hold hmem).symm.trans (hindex ▸ ha))) hne
      · split at hmem
        case isTrue he => rw [he]
        case isFalse => cases hmem
    case isFalse hset =>
      obtain hmem | hmem := hmem
      · split at hmem
        · exact hold (List.mem_filter.mp hmem).1
        · exact hold hmem
      · split at hmem
        case isTrue => exact absurd (by simp [List.mem_singleton.mp hmem]) hset
        case isFalse => cases hmem
  · obtain ⟨o, ho, -, -, heq⟩ := hchange.node e o' ho'
    rw [hchange.size]
    rw [heq, List.mem_append] at hmem
    obtain hmem | hmem := hmem
    · refine huses.bounded e o u htraced ho ?_
      split at hmem
      · exact (List.mem_filter.mp hmem).1
      · exact hmem
    · split at hmem
      · rw [List.mem_singleton.mp hmem]
        exact (Array.getElem?_eq_some_iff.mp hn).1
      · cases hmem

end

/-! ## What stays as it is -/

/-- A phi that was made for the values that a place has at the ends of the predecessors of a block. -/
structure Merge where
  block : BlockId
  place : Nat
  values : List InstId

variable {made : InstId → Option Merge}

/-- `h` has the blocks of `g`, without some instructions of blocks that can be reached and with the phis `made`. -/
structure Outline (g h : FlowGraph) (made : InstId → Option Merge) : Prop where
  sound : h.layout.Sound
  size : g.nodes.size ≤ h.nodes.size
  preds : ∀ b : BlockId, (h.blocks[b.index]?).map Block.preds = (g.blocks[b.index]?).map Block.preds
  catchEntries : h.catchEntries = g.catchEntries
  postorder : h.postorder = g.postorder
  initial : h.initialDefinitions = g.initialDefinitions
  insts : ∀ b, h.insts b = (g.insts b).filter (h.isPlaced ·)
  gone : ∀ b d, d ∈ g.insts b → h.isPlaced d = false → g.Reachable b
  oldPhis : ∀ b (d : InstId), d.index < g.nodes.size → (d ∈ phisOf h b ↔ d ∈ phisOf g b)
  phisIn : ∀ b d, d ∈ phisOf h b → d.index < h.nodes.size
  created : ∀ d, (made d).isSome = true ↔ g.nodes.size ≤ d.index ∧ d.index < h.nodes.size
  newPhis : ∀ d m n, made d = some m → h.nodes[d.index]? = some n →
    (n.block = some m.block ∨ n.block = none) ∧ ∀ b, d ∈ phisOf h b ↔ n.block = some b

/-- The graph reads definitions the way `g` does, but `κ d` in the place of `d`, and the phis that were made read the
values they were made for. None of them reads a phi that was made and is in no block. -/
structure Wired (g h : FlowGraph) (κ : InstId → InstId) (made : InstId → Option Merge) : Prop where
  uses : UsesRight g h
  shapes : ∀ (d : InstId) n, g.nodes[d.index]? = some n →
    ∃ n' f, h.nodes[d.index]? = some n' ∧ n'.inst = n.inst.mapArgs f
  forms : ∀ d m n, made d = some m → h.nodes[d.index]? = some n → ∃ as alive, n.inst = .phi none as alive .tagged
  kept : ∀ u n n', Counts g h u → g.nodes[u.index]? = some n → h.nodes[u.index]? = some n' →
    n'.inst = n.inst.mapArgs fun _ => κ
  merged : ∀ d m n, made d = some m → Counts g h d → h.nodes[d.index]? = some n → n.inst.args = m.values.map κ
  reads : ∀ (u : InstId) n (a : InstId) m, Counts g h u → h.nodes[u.index]? = some n → a ∈ n.inst.args →
    g.nodes.size ≤ a.index → h.nodes[a.index]? = some m → m.block ≠ none

theorem Outline.of_definite (hg : Definite g) : Outline g g fun _ => none where
  sound := hg.located.sound
  size := Nat.le_refl _
  preds _ := rfl
  catchEntries := rfl
  postorder := rfl
  initial := rfl
  insts b := by
    refine (List.filter_eq_self.mpr fun i hi => ?_).symm
    exact hg.isPlaced_of_mem hi
  gone b d hd hgone := by
    rw [hg.isPlaced_of_mem hd] at hgone
    cases hgone
  oldPhis _ _ _ := .rfl
  phisIn b d hd := (hg.located.phis b d (exists_of_mem_phisOf hd)).1
  created d := by
    simp only [Option.isSome_none, Bool.false_eq_true, false_iff, not_and]
    omega
  newPhis _ _ _ hm := by cases hm

theorem Outline.lastInst_eq (hg : Definite g) (ho : Outline g h made) (hends : ∀ b i n, i ∈ g.insts b →
    g.nodes[i.index]? = some n → n.inst.isTerminator = true → h.isPlaced i = true) (hb : g.Reachable b) :
    h.lastInst b = g.lastInst b := by
  show (h.insts b).getLast? = (g.insts b).getLast?
  by_cases hne : b = graphEntry
  · rw [ho.insts, hne, hg.entry]
    rfl
  obtain ⟨last, hlast, hall⟩ := (hg.block_holds hb).insts hne
  have hmem : last ∈ g.insts b := List.mem_of_getLast? hlast
  obtain ⟨n, hn, hholds⟩ := hall last hmem
  obtain ⟨front, hsplit⟩ := List.getLast?_eq_some_iff.mp hlast
  have hsplit : g.insts b = front ++ [last] := hsplit
  have hplaced := hends b last n hmem hn (hholds.terminates.mpr rfl)
  rw [ho.insts, hsplit, List.filter_append, List.filter_cons_of_pos hplaced, List.filter_nil, List.getLast?_concat,
    List.getLast?_concat]

theorem Wired.of_definite (hg : Definite g) : Wired g g id fun _ => none where
  uses := .of_definite hg
  shapes d n hn := ⟨n, fun _ a => a, hn, by simp⟩
  forms _ _ _ hm := by cases hm
  kept u n n' _ hn hn' := by
    obtain rfl := Option.some_inj.mp (hn.symm.trans hn')
    exact Inst.mapArgs_id.symm
  merged _ _ _ hm := by cases hm
  reads u n a m _ _ _ hlt hm := absurd (Array.getElem?_eq_some_iff.mp hm).1 (Nat.not_lt.mpr hlt)

theorem Outline.congr (ho : Outline g h made) (hs : SameShape h h') : Outline g h' made := by
  have hplaced (i : InstId) : h'.isPlaced i = h.isPlaced i := by
    unfold FlowGraph.isPlaced
    rw [hs.layout]
  have hphis (b : BlockId) : phisOf h' b = phisOf h b := by
    unfold phisOf
    rw [hs.blocks]
  exact {
    sound := hs.layout ▸ ho.sound
    size := hs.nodes.size ▸ ho.size
    preds := hs.blocks ▸ ho.preds
    catchEntries := hs.catchEntries.trans ho.catchEntries
    postorder := hs.postorder.trans ho.postorder
    initial := hs.initial.trans ho.initial
    insts b := by
      simp only [hplaced]
      rw [← ho.insts]
      unfold FlowGraph.insts
      rw [hs.layout]
    gone b d hd hgone := ho.gone b d hd (hplaced d ▸ hgone)
    oldPhis b d hd := by rw [hphis, ho.oldPhis b d hd]
    phisIn b d hd := hs.nodes.size ▸ ho.phisIn b d (hphis b ▸ hd)
    created d := by rw [hs.nodes.size, ho.created]
    newPhis d m n' hm hn' := by
      obtain ⟨n, hn, hblock⟩ := hs.nodes.node d n' hn'
      rw [hblock]
      simp only [hphis]
      exact ho.newPhis d m n hm hn }

namespace Wired

/-- The node may have become a live phi, but reads what it read. -/
def Alike (g : FlowGraph) (j : InstId) (n n' : Node) : Prop :=
  n'.inst.args = n.inst.args ∧ (j.index < g.nodes.size → n'.inst = n.inst) ∧
    ∀ as alive, n.inst = .phi none as alive .tagged → ∃ alive, n'.inst = .phi none as alive .tagged

theorem Alike.of_eq {j : InstId} {n n' : Node} (heq : n'.inst = n.inst) : Alike g j n n' :=
  ⟨by rw [heq], fun _ => heq, fun as alive h => ⟨alive, heq.trans h⟩⟩

theorem narrow (hw : Wired g h κ made)
    (hc : Changes h h' fun j n n' => Alike g j n n' ∧ n'.inputUses ⊆ n.inputUses ∧
      ∀ u ∈ n.inputUses, Counts g h' u.user → u ∈ n'.inputUses)
    (hcounts : ∀ u, Counts g h' u → Counts g h u)
    (hreads : ∀ (u : InstId) n (a : InstId) m m', Counts g h' u → h.nodes[u.index]? = some n → a ∈ n.inst.args →
      g.nodes.size ≤ a.index → h.nodes[a.index]? = some m → h'.nodes[a.index]? = some m' → m.block ≠ none →
        m'.block ≠ none) : Wired g h' κ made where
  uses := hw.uses.narrow (hc.mono fun _ _ _ h => ⟨h.1.1, h.2⟩) hcounts
  shapes d n hn := by
    obtain ⟨m, f, hm, hinst⟩ := hw.shapes d n hn
    obtain ⟨m', hm', ⟨-, hsame, -⟩, -⟩ := hc.exists_node hm
    exact ⟨m', f, hm', (hsame (Array.getElem?_eq_some_iff.mp hn).1).trans hinst⟩
  forms d m n' hm hn' := by
    obtain ⟨n, hn, ⟨-, -, hform⟩, -⟩ := hc.node d n' hn'
    obtain ⟨as, alive, hinst⟩ := hw.forms d m n hm hn
    exact ⟨as, hform as alive hinst⟩
  kept u n n' hu hn hn' := by
    obtain ⟨m, hm, ⟨-, hsame, -⟩, -⟩ := hc.node u n' hn'
    rw [hsame (Array.getElem?_eq_some_iff.mp hn).1]
    exact hw.kept u n m (hcounts u hu) hn hm
  merged d m n' hm hd hn' := by
    obtain ⟨n, hn, ⟨hargs, -⟩, -⟩ := hc.node d n' hn'
    rw [hargs]
    exact hw.merged d m n hm (hcounts d hd) hn
  reads u n' a m' hu hn' ha hlt hm' := by
    obtain ⟨n, hn, ⟨hargs, -⟩, -⟩ := hc.node u n' hn'
    obtain ⟨m, hm, -⟩ := hc.node a m' hm'
    rw [hargs] at ha
    exact hreads u n a m m' hu hn ha hlt hm hm' (hw.reads u n a m (hcounts u hu) hn ha hlt hm)

theorem congr (hw : Wired g h κ made) (hs : SameShape h h')
    (hc : Changes h h' fun j n n' => Alike g j n n' ∧ n'.inputUses = n.inputUses) : Wired g h' κ made := by
  refine hw.narrow (hc.mono fun _ _ _ ⟨halike, heq⟩ => ⟨halike, by rw [heq]; exact List.Subset.refl _,
    fun u hu _ => heq ▸ hu⟩) (fun u => hs.counts_iff.mp) fun _ _ a m m' _ _ _ _ hm hm' hblock => ?_
  obtain ⟨m₁, hm₁, heq⟩ := hs.nodes.node a m' hm'
  obtain rfl := Option.some_inj.mp (hm.symm.trans hm₁)
  exact heq ▸ hblock

theorem redirected (hw : Wired g h κ made) (hold : Traced g old) (hn : h.nodes[old.index]? = some n) (hne : old ≠ new)
    {m : Node} (hm : h.nodes[new.index]? = some m) (hblock : g.nodes.size ≤ new.index → m.block ≠ none)
    {es : List Use} :
    Wired g (h.redirected old new n.inputUses es) (fun d => instead old new (κ d)) made := by
  have hchange := @changes_redirected h old new n.inputUses es
  have hcounts (u : InstId) : Counts g (h.redirected old new n.inputUses es) u → Counts g h u :=
    sameShape_redirected.counts_iff.mp
  refine ⟨hw.uses.redirected hold hn hne (Array.getElem?_eq_some_iff.mp hm).1, fun d o ho => ?_, fun d o o' ho ho' =>
    ?_, fun u o o' hu ho ho' => ?_, fun d o o' ho hd ho' => ?_, fun u o' a l' hu ho' ha hlt hl' => ?_⟩
  · obtain ⟨o₁, f, ho₁, hinst₁⟩ := hw.shapes d o ho
    obtain ⟨o', ho', hinst, -⟩ := hchange.exists_node ho₁
    exact ⟨o', _, ho', by rw [hinst, hinst₁, Inst.mapArgs_mapArgs]⟩
  · obtain ⟨o₁, ho₁, hinst, -⟩ := hchange.node d o' ho'
    obtain ⟨as, alive, hphi⟩ := hw.forms d o o₁ ho ho₁
    rw [hinst, hphi]
    exact ⟨_, _, rfl⟩
  · obtain ⟨o₁, ho₁, hinst, -⟩ := hchange.node u o' ho'
    rw [hw.uses.inst_redirected hold hn (hcounts u hu) ho₁ hinst, hw.kept u o o₁ (hcounts u hu) ho ho₁,
      Inst.mapArgs_mapArgs]
  · obtain ⟨o₁, ho₁, hinst, -⟩ := hchange.node d o' ho'
    rw [hw.uses.inst_redirected hold hn (hcounts d hd) ho₁ hinst, Inst.args_mapArgs_const,
      hw.merged d o o₁ ho (hcounts d hd) ho₁, List.map_map]
    rfl
  · obtain ⟨o₁, ho₁, hinst, -⟩ := hchange.node u o' ho'
    obtain ⟨l, hl, -, hsame, -⟩ := hchange.node a l' hl'
    rw [hsame]
    rw [hw.uses.inst_redirected hold hn (hcounts u hu) ho₁ hinst, Inst.args_mapArgs_const] at ha
    obtain ⟨a', ha', rfl⟩ := List.mem_map.mp ha
    by_cases heq : a' = old
    · subst heq
      rw [instead_self] at hl hlt
      obtain rfl := Option.some_inj.mp (hm.symm.trans hl)
      exact hblock hlt
    · rw [instead_of_ne heq] at hl hlt
      exact hw.reads u o₁ a' l (hcounts u hu) ho₁ ha' hlt hl

end Wired

/-! ## Taking a load out -/

section

variable (hg : Definite g) (ho : Outline g h made) (hb : h.layout.home? i = some b)

include hg ho hb

omit hg in
theorem Outline.mem_of_home : i ∈ g.insts b ∧ i ∈ h.insts b := by
  have hi : i ∈ h.insts b := ho.sound.mem_iff.mpr hb
  refine ⟨?_, hi⟩
  rw [ho.insts] at hi
  exact (List.mem_filter.mp hi).1

omit hg ho hb in
theorem isPlaced_removed {j : InstId} : (h.removed i n b).isPlaced j = (decide (j ≠ i) && h.isPlaced j) := by
  show ((h.layout.unplace i b).home? j).isSome = (_ && (h.layout.home? j).isSome)
  rw [Layout.home?_unplace]
  split <;> simp_all

omit hg in
theorem insts_removed (c : BlockId) : (h.removed i n b).insts c = (h.insts c).filter (· ≠ i) := by
  show (h.layout.unplace i b).insts c = _
  rw [Layout.insts_unplace]
  split
  case isTrue hc =>
    subst hc
    rw [(ho.sound.nodup c).erase_eq_filter]
    exact List.filter_congr fun j _ => by simp [bne, beq_eq_decide]
  case isFalse hc =>
    refine (List.filter_eq_self.mpr fun j hj => ?_).symm
    have hj : h.layout.home? j = some c := ho.sound.mem_iff.mp hj
    rw [decide_eq_true_eq]
    rintro rfl
    exact hc (Option.some_inj.mp (hj.symm.trans hb))

omit hg ho hb in
theorem changes_removed : Changes h (h.removed i n b) fun j m m' => m'.inst = m.inst ∧
    m'.replacement = m.replacement ∧ m'.block = (if j = i then none else m.block) ∧
      m'.inputUses = m.inputUses.filter fun u => (j, u) ∉ Edit.usesBy i n.inst.args := by
  refine Changes.mapNodes (f := fun j m => if j = i then { m.dropUses (Edit.usesBy i n.inst.args)
    (Edit.usesBy i n.envValues) j with block := none } else m.dropUses (Edit.usesBy i n.inst.args)
    (Edit.usesBy i n.envValues) j) ?_ fun j m => ?_
  · unfold FlowGraph.removed
    rw [nodes_withLayout, withNode, mapNodes_mapNodes]
  · split <;> exact ⟨rfl, rfl, rfl, rfl⟩

theorem Outline.removed (hreach : g.Reachable b) : Outline g (h.removed i n b) made := by
  obtain ⟨hi, -⟩ := ho.mem_of_home hb
  have hlt := hg.lt_size hi
  have hchange := @changes_removed h b i n
  have hphis (c : BlockId) : phisOf (h.removed i n b) c = phisOf h c := rfl
  exact {
    sound := ho.sound.unplace hb
    size := hchange.size ▸ ho.size
    preds := ho.preds
    catchEntries := ho.catchEntries
    postorder := ho.postorder
    initial := ho.initial
    insts c := by
      rw [insts_removed ho hb, ho.insts, List.filter_filter]
      exact List.filter_congr fun j _ => isPlaced_removed.symm
    gone c d hd hgone := by
      rw [isPlaced_removed, Bool.and_eq_false_iff] at hgone
      obtain heq | hgone := hgone
      · obtain rfl : d = i := by simpa using heq
        exact hg.block_unique hd hi ▸ hreach
      · exact ho.gone c d hd hgone
    oldPhis c d hd := by rw [hphis, ho.oldPhis c d hd]
    phisIn c d hd := hchange.size ▸ ho.phisIn c d hd
    created d := by rw [hchange.size, ho.created]
    newPhis d m n' hm hn' := by
      obtain ⟨o, ho', -, -, hblock, -⟩ := hchange.node d n' hn'
      have hne : d ≠ i := by
        rintro rfl
        exact Nat.not_le.mpr hlt ((ho.created d).mp (by rw [hm]; rfl)).1
      rw [hblock, if_neg hne]
      simp only [hphis]
      exact ho.newPhis d m o hm ho' }

theorem counts_removed {u : InstId} (hu : Counts g (h.removed i n b) u) : Counts g h u ∧ u ≠ i := by
  obtain ⟨hi, -⟩ := ho.mem_of_home hb
  obtain ⟨c, hc, hu⟩ | ⟨c, hc, hu⟩ | ⟨hsize, m', hm', hblock⟩ := hu
  · rw [insts_removed ho hb, List.mem_filter] at hu
    exact ⟨.inl ⟨c, hc, hu.1⟩, by simpa using hu.2⟩
  · refine ⟨.inr (.inl ⟨c, hc, hu⟩), ?_⟩
    rintro rfl
    exact hg.not_placed_of_livePhi hu hi
  · obtain ⟨m, hm, -, -, heq, -⟩ := changes_removed.node u m' hm'
    have hne : u ≠ i := by
      rintro rfl
      exact Nat.not_le.mpr (hg.lt_size hi) hsize
    rw [heq, if_neg hne] at hblock
    exact ⟨.inr (.inr ⟨hsize, m, hm, hblock⟩), hne⟩

/-- Only uses by the instruction itself are dropped. -/
theorem narrows_removed : Changes h (h.removed i n b) fun _ m m' => m'.inst = m.inst ∧ m'.inputUses ⊆ m.inputUses ∧
    ∀ u ∈ m.inputUses, Counts g (h.removed i n b) u.user → u ∈ m'.inputUses := by
  refine changes_removed.mono fun j m m' ⟨hinst, _, _, huses⟩ => ⟨hinst, ?_, fun u hu hcount => ?_⟩
  · rw [huses]
    exact List.filter_subset_self _
  · rw [huses]
    refine List.mem_filter.mpr ⟨hu, ?_⟩
    rw [decide_eq_true_eq, Edit.mem_usesBy]
    exact fun h => (counts_removed hg ho hb hcount).2 h.1

theorem UsesRight.removed (huses : UsesRight g h) : UsesRight g (h.removed i n b) :=
  huses.narrow ((narrows_removed hg ho hb).mono fun _ _ _ hm => ⟨by rw [hm.1], hm.2⟩) fun _ hu =>
  (counts_removed hg ho hb hu).1

theorem Wired.removed (hw : Wired g h κ made) : Wired g (h.removed i n b) κ made := by
  refine hw.narrow ((narrows_removed hg ho hb).mono fun _ _ _ hm => ⟨.of_eq hm.1, hm.2⟩)
    (fun u hu => (counts_removed hg ho hb hu).1) fun u l a m m' _ _ _ hsize hm hm' hblock => ?_
  obtain ⟨l, hl, -, -, heq, -⟩ := changes_removed.node a m' hm'
  obtain rfl := Option.some_inj.mp (hm.symm.trans hl)
  rwa [heq, if_neg]
  rintro rfl
  exact Nat.not_le.mpr (hg.lt_size (ho.mem_of_home hb).1) hsize

end

end Loads

end Midend
