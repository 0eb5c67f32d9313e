import Midend.SmallIntegers
import Midend.Proofs.Constants.Reaching
import Midend.Proofs.Execution.Traces

/-! # Values checked on the way

The walk of the dominator tree takes along the values that checks have been made of, and gives them back as it found
them. So whatever it marks is a use of a value that is checked on every way to it, and it changes nothing but marks.
-/

namespace Midend.SmallIntegers

open Midend.Flow FlowGraph Ssa Execution

variable {α β : Type} {fault : Prop} {g h : FlowGraph} {p : Progress} {b : BlockId} {d i : InstId} {u : Use}
  {front back : List InstId} {checked : NumberSet}

/-! ## Justified marks -/

def Checked (g : FlowGraph) (d i : InstId) : Prop :=
  ∃ e n, g.nodes[e.index]? = some n ∧ n.inst.opcode = .checkSmi ∧ n.inst.args[0]? = some d ∧ Precedes g e i

/-- The use is of a value that is checked on every way to the branch that reads it, or to the goto at the end of the
predecessor that a phi has it from. -/
inductive Justified (g : FlowGraph) (u : Use) : Prop
  | branch {n : Node} {d : InstId} (hn : g.nodes[u.user.index]? = some n) (hbranch : n.inst.opcode = .branch)
      (hd : n.inst.args[u.index]? = some d) (hchecked : Checked g d u.user)
  | phi {b c : BlockId} {n : Node} {d last : InstId} (hphi : u.user ∈ phisOf g c)
      (hpred : (predsOf g c)[u.index]? = some b) (hlast : g.lastInst b = some last)
      (hn : g.nodes[last.index]? = some n) (hgoto : n.inst = .goto c) (hd : inputOf g u.user u.index = some d)
      (hchecked : Checked g d last)

/-- What the walk has made of `g`: some more uses are marked, each of them with a reason. -/
structure Marked (g : FlowGraph) (p : Progress) (h : FlowGraph) : Prop where
  rest : ∃ reaching, h = { g with reaching }
  reaching : ∀ u, h.reachingClass? u = g.reachingClass? u ∨ h.reachingClass? u = some .smi ∧ Justified g u
  unchanged : p.changed = false → h = g
  phis : ∀ phi ∈ p.phis, ∃ c, phi ∈ phisOf g c

theorem Marked.refl (g : FlowGraph) : Marked g {} g where
  rest := ⟨g.reaching, rfl⟩
  reaching _ := .inl rfl
  unchanged _ := rfl
  phis _ hphi := by cases hphi

theorem reachingClass?_setReaching {c : ClassId} (v : Use) :
    FlowGraph.reachingClass? { h with reaching := (u, c) :: h.reaching.filter (·.1 != u) } v =
      if v = u then some c else h.reachingClass? v := by
  have hother := reachingClass?_forgetUses (g := h) [u] v
  simp only [forgetUses, List.mem_singleton] at hother
  unfold reachingClass? at *
  rw [List.lookup_cons]
  by_cases huv : v = u
  · simp [huv]
  · have hne : (v == u) = false := beq_eq_false_iff_ne.mpr huv
    simp only [hne, if_neg huv] at hother ⊢
    rw [← hother]
    congr 1
    exact List.filter_congr fun e _ => by simp [bne, beq_eq_decide]

theorem walks_markUse (hm : Marked g p h) (hu : Justified g u) :
    Threads fault h p (markUse u) fun _ p' h' => Marked g p' h' ∧ p'.phis = p.phis := by
  obtain ⟨reaching, rfl⟩ := hm.rest
  unfold markUse
  rw [Threads.bind_iff, Threads.getThe_iff, Threads.ite_iff]
  refine ⟨fun _ => ?_, fun _ => ⟨hm, rfl⟩⟩
  rw [Threads.bind_iff, Threads.lift_iff, Edit.setReaching, Leads.modify_iff, Threads.modify_iff]
  refine ⟨⟨⟨_, rfl⟩, fun v => ?_, by simp, hm.phis⟩, rfl⟩
  rw [reachingClass?_setReaching]
  split
  case isTrue huv => exact .inr ⟨rfl, huv ▸ hu⟩
  case isFalse => exact hm.reaching v

/-! ## Known values -/

/-- Behind `front` in `b`, the values with these numbers have been checked. -/
def Known (g : FlowGraph) (b : BlockId) (front : List InstId) (numbers : List Nat) : Prop :=
  ∀ k ∈ numbers, ∃ e n, Available g b front e ∧ g.nodes[e.index]? = some n ∧ n.inst.opcode = .checkSmi ∧
    n.inst.args[0]? = some ⟨k⟩

namespace Known

theorem passes_check (hg : Definite g) (h : Known g b front checked.members) (hb : g.Reachable b)
    (hsplit : g.insts b = front ++ i :: back) (hd : checked.contains d.index = true) : Checked g d i := by
  obtain ⟨e, n, havailable, hn, hop, harg⟩ := h d.index (of_decide_eq_true hd)
  exact ⟨e, n, hn, hop, harg, havailable.precedes hg hb hsplit⟩

theorem append (h : Known g b front checked.members) (back : List InstId) :
    Known g b (front ++ back) checked.members := by
  intro k hk
  obtain ⟨e, n, ⟨a, he, hdom, hfront⟩, hrest⟩ := h k hk
  exact ⟨e, n, ⟨a, he, hdom, fun h => List.mem_append_left back (hfront h)⟩, hrest⟩

theorem below (hexact : ExactDominators g g) (h : Known g b front checked.members) (hb : g.Reachable b) {k : Block}
    (hk : g.blocks[b.index]? = some k) {c : BlockId} (hc : c ∈ k.dominated) : Known g c [] checked.members := by
  intro x hx
  obtain ⟨e, n, havailable, hrest⟩ := h x hx
  exact ⟨e, n, havailable.below hexact hb hk hc, hrest⟩

theorem insert {checked' : NumberSet} {n : Node} (h : Known g b front checked.members) (hi : i ∈ g.insts b)
    (hn : g.nodes[i.index]? = some n) (hop : n.inst.opcode = .checkSmi) (hd : n.inst.args[0]? = some d)
    (hinsert : checked.insert d.index = .ok checked') : Known g b (front ++ [i]) checked'.members := by
  intro k hk
  have hk := (NumberSet.contains_of_insert hinsert k).mp (decide_eq_true hk)
  obtain rfl | hk := hk
  · exact ⟨i, n, ⟨b, hi, .refl b, fun _ => by simp⟩, hn, hop, hd⟩
  · exact h.append [i] k (of_decide_eq_true hk)

theorem passes_check_at_end (hg : Definite g) (h : Known g b (g.insts b) checked.members) (hb : g.Reachable b)
    {n : Node} (hlast : g.lastInst b = some i) (hn : g.nodes[i.index]? = some n) (hop : n.inst.opcode ≠ .checkSmi)
    (hd : checked.contains d.index = true) : Checked g d i := by
  obtain ⟨front, hsplit⟩ : ∃ front, g.insts b = front ++ [i] := List.getLast?_eq_some_iff.mp hlast
  have hknown : Known g b front checked.members := by
    intro k hk
    obtain ⟨e, m, ⟨a, he, hdom, hfront⟩, hm, hrest⟩ := h k hk
    refine ⟨e, m, ⟨a, he, hdom, fun hab => ?_⟩, hm, hrest⟩
    have hmem := hfront hab
    rw [hsplit, List.mem_append, List.mem_singleton] at hmem
    refine hmem.resolve_right ?_
    rintro rfl
    obtain rfl := Option.some_inj.mp (hn.symm.trans hm)
    exact hop hrest.1
  exact hknown.passes_check hg hb hsplit hd

end Known

/-! ## Blocks -/

theorem walks_visitInst (hg : Definite g) (hm : Marked g p h) (hb : g.Reachable b)
    (hsplit : g.insts b = front ++ i :: back) (hknown : Known g b front checked.members) :
    Threads True h p (visitInst checked i) fun checked' p' h' => Marked g p' h' ∧
    Known g b (front ++ [i]) checked'.members := by
  obtain ⟨reaching, rfl⟩ := hm.rest
  unfold visitInst
  rw [Threads.bind_iff, Threads.getThe_iff, Threads.bind_iff, Threads.read_iff]
  refine Yields.of_ok fun op hop => ?_
  obtain ⟨n, hn, hop⟩ := opcode_eq_ok.mp hop
  split
  case h_1 =>
    rw [Threads.bind_iff, Threads.read_iff]
    refine Yields.of_ok fun d hd => ?_
    obtain ⟨n', hn', hd⟩ := arg_eq_ok.mp hd
    obtain rfl := Option.some_inj.mp (hn.symm.trans hn')
    rw [Threads.read_iff]
    exact Yields.of_ok fun checked' hinsert => ⟨hm, hknown.insert (by simp [hsplit]) hn hop hd hinsert⟩
  case h_2 =>
    rw [Threads.bind_iff, Threads.read_iff]
    refine Yields.of_ok fun as has => ?_
    obtain ⟨n', hn', rfl⟩ := args_eq_ok.mp has
    obtain rfl := Option.some_inj.mp (hn.symm.trans hn')
    rw [Threads.bind_iff]
    refine (Threads.stepwise.forM (s := (p, _)) (fun _ w => Marked g w.1 w.2) hm ?_).mono fun _ p' h' hm' =>
      ⟨hm', hknown.append [i]⟩
    rintro done ⟨d, k⟩ rest ⟨p', h'⟩ hall hm'
    have hd : n.inst.args[k]? = some d := by
      have hmem : (d, k) ∈ n.inst.args.zipIdx := by simp [hall]
      exact List.mem_zipIdx_iff_getElem?.mp hmem
    refine Threads.ite_iff.mpr ⟨fun hcontains => ?_, fun _ => hm'⟩
    refine (walks_markUse hm' (.branch hn hop hd (hknown.passes_check hg hb hsplit hcontains))).mono fun _ _ _ h => h.1
  case h_3 => exact ⟨hm, hknown.append [i]⟩

theorem mem_enqueue {a x : InstId} {list : List InstId} : x ∈ enqueue a list ↔ x = a ∨ x ∈ list := by
  unfold enqueue
  split <;> grind

theorem walks_visitJoinEdge (hg : Definite g) (hm : Marked g p h) (hb : g.Reachable b)
    (hknown : Known g b (g.insts b) checked.members) :
    Threads True h p (visitJoinEdge checked b) fun _ p' h' => Marked g p' h' := by
  obtain ⟨reaching, rfl⟩ := hm.rest
  unfold visitJoinEdge
  rw [Threads.bind_iff, Threads.getThe_iff]
  split
  case h_1 => exact hm
  case h_2 last hlast =>
    rw [Threads.bind_iff, Threads.read_iff]
    refine Yields.of_ok fun d hd => ?_
    obtain ⟨n, hn, rfl⟩ := inst_eq_ok.mp hd
    split
    case h_2 => exact hm
    case h_1 target hgoto =>
      have hop : n.inst.opcode ≠ .checkSmi := by simp [hgoto, Inst.opcode]
      rw [Threads.bind_iff, Threads.read_iff]
      refine Yields.of_ok fun k hk => ?_
      split
      case h_1 => exact hm
      case h_2 k =>
        obtain ⟨ps, hps, hfind⟩ := bind_eq_ok.mp hk
        obtain ⟨t, ht, rfl⟩ := preds_eq_ok.mp hps
        have hpred : (predsOf g target)[k]? = some b := by
          obtain ⟨hlt, hfound, -⟩ := List.findIdx?_eq_some_iff_getElem.mp (Except.ok.inj hfind)
          rw [predsOf, ht, Option.map_some, Option.getD_some, List.getElem?_eq_getElem hlt, eq_of_beq hfound]
        rw [Threads.bind_iff, Threads.read_iff]
        refine Yields.of_ok fun phis hphis => ?_
        obtain ⟨t', ht', rfl⟩ := phis_eq_ok.mp hphis
        obtain rfl := Option.some_inj.mp (ht.symm.trans ht')
        refine Threads.stepwise.forM (s := (p, _)) (fun _ w => Marked g w.1 w.2) hm ?_
        rintro done phi rest ⟨p', h'⟩ hall hm'
        have hphi : phi ∈ phisOf g target := by
          rw [phisOf_eq (g := g) ht]
          simp [hall]
        rw [Threads.bind_iff, Threads.read_iff]
        refine Yields.of_ok fun d hd => ?_
        obtain ⟨m, hm₀, hd⟩ := arg_eq_ok.mp hd
        refine Threads.ite_iff.mpr ⟨fun hcontains => ?_, fun _ => hm'⟩
        rw [Threads.bind_iff, Threads.read_iff]
        refine Yields.of_ok fun _ _ => Threads.ite_iff.mpr ⟨fun _ => ?_, fun _ => hm'⟩
        have hinput : inputOf g phi k = some d := Option.bind_eq_some_iff.mpr ⟨m, hm₀, hd⟩
        have hchecked := hknown.passes_check_at_end hg hb hlast hn hop hcontains
        rw [Threads.bind_iff]
        refine (walks_markUse hm' (.phi hphi hpred hlast hn hgoto hinput hchecked)).mono ?_
        rintro _ p'' h'' ⟨hm'', -⟩
        refine ⟨hm''.rest, hm''.reaching, hm''.unchanged, fun x hx => ?_⟩
        obtain rfl | hx := mem_enqueue.mp hx
        · exact ⟨target, hphi⟩
        · exact hm''.phis x hx

/-! ## The tree -/

/-- The walk of a block and what hangs below it gives the known values back as they were. -/
theorem walks_walk (hg : Definite g) (hexact : ExactDominators g g) (height : Nat) (hm : Marked g p h)
    (hb : g.Reachable b) (hknown : Known g b [] checked.members) :
    Threads True h p (walk height checked b) fun checked' p' h' => Marked g p' h' ∧
    checked'.members = checked.members := by
  induction height generalizing p h b checked with
  | zero => exact trivial
  | succ height ih =>
    obtain ⟨reaching, rfl⟩ := hm.rest
    unfold walk
    rw [Threads.bind_iff, Threads.getThe_iff, Threads.bind_iff]
    refine (Threads.stepwise.foldlM (s := (p, _)) (fun done c w => Marked g w.1 w.2 ∧ Known g b done c.members)
      ⟨hm, hknown⟩ fun front i back c w hsplit hinv => walks_visitInst hg hinv.1 hb hsplit hinv.2).mono ?_
    rintro inside p₁ h₁ ⟨hm₁, hinside⟩
    obtain ⟨reaching₁, rfl⟩ := hm₁.rest
    rw [Threads.bind_iff, Threads.getThe_iff, Threads.bind_iff, Threads.read_iff]
    refine Yields.of_ok fun k hk => ?_
    have hk : g.blocks[b.index]? = some k := block_eq_ok.mp hk
    rw [Threads.bind_iff]
    refine (Threads.stepwise.foldlM (s := (p₁, _)) (fun _ c w => Marked g w.1 w.2 ∧ c.members = inside.members)
      ⟨hm₁, rfl⟩ ?_).mono ?_
    · rintro done c rest checked' ⟨p', h'⟩ hall ⟨hm', hsame⟩
      have hc : c ∈ k.dominated := by simp [hall]
      refine (ih hm' (hexact.child hb hk hc).1 (hsame ▸ hinside.below hexact hb hk hc)).mono ?_
      rintro _ p'' h'' ⟨hm'', hsame'⟩
      exact ⟨hm'', hsame'.trans hsame⟩
    · rintro inside' p₂ h₂ ⟨hm₂, hsame⟩
      rw [Threads.bind_iff]
      refine (walks_visitJoinEdge hg hm₂ hb (hsame ▸ hinside)).mono fun _ p₃ h₃ hm₃ => ?_
      exact ⟨hm₃, rfl⟩

end Midend.SmallIntegers
