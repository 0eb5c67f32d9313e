import Midend.Proofs.Defined
import Midend.Proofs.Graph.Changes
import Midend.Proofs.Ssa.UseLists
import Midend.Ranges

/-! # Graphs with constraints

Constraints stand between a definition and its uses. Each of them has the definition at the bottom as its root, and an
input that was renamed to a constraint had that root before.
-/

namespace Midend.Ranges

open FlowGraph Ssa

variable {g₀ g g' : FlowGraph} {cs gone : List InstId} {ρ : InstId → InstId} {b : BlockId} {a c d e i : InstId}
  {n : Node} {u : Use} {us : List Use}

theorem clearOverflow_mapArgs {f : Nat → InstId → InstId} {i : Inst} :
    clearOverflow (i.mapArgs f) = (clearOverflow i).mapArgs f := by cases i <;> rfl

@[simp] theorem clearOverflow_clearOverflow {i : Inst} : clearOverflow (clearOverflow i) = clearOverflow i := by
  cases i <;> rfl

@[simp] theorem opcode_clearOverflow {i : Inst} : (clearOverflow i).opcode = i.opcode := by cases i <;> rfl

@[simp] theorem args_clearOverflow {i : Inst} : (clearOverflow i).args = i.args := by cases i <;> rfl

@[simp] theorem isAlivePhi_clearOverflow {i : Inst} : (clearOverflow i).isAlivePhi = i.isAlivePhi := by cases i <;> rfl

/-! ## Roots -/

def DeadPhi (g : FlowGraph) (i : InstId) : Prop :=
  ∃ n, g.nodes[i.index]? = some n ∧ n.inst.opcode = .phi ∧ n.inst.isAlivePhi = false

/-- A definition that is no constraint, and whose uses are listed right, as far as they are not those of dead phis. -/
def Tracked (g : FlowGraph) (d : InstId) : Prop :=
  ∃ n, g.nodes[d.index]? = some n ∧ n.inst.opcode ≠ .constraint ∧
    ∀ u ∈ n.inputUses, DeadPhi g u.user ∨ inputOf g u.user u.index = some d

theorem Tracked.lt_size (h : Tracked g d) : d.index < g.nodes.size := by
  obtain ⟨n, hn, -⟩ := h
  exact (Array.getElem?_eq_some_iff.mp hn).1

/-- What may be constrained: a definition of `g₀`, or one of the constraints `cs`. -/
def Known (g₀ : FlowGraph) (cs : List InstId) (d : InstId) : Prop := Tracked g₀ d ∨ d ∈ cs

theorem Known.mono {cs' : List InstId} (h : Known g₀ cs d) (hsub : cs ⊆ cs') : Known g₀ cs' d := h.imp id fun h =>
    hsub h

/-- The use is one of the value `r`: an input that was `r` in `g₀`, or the value of a constraint with that root. -/
def Owed (g₀ : FlowGraph) (cs : List InstId) (ρ : InstId → InstId) (u : Use) (r : InstId) : Prop :=
  inputOf g₀ u.user u.index = some r ∨ u.user ∈ cs ∧ (u.index = 0 → ρ u.user = r)

/-- What was `a₀` is now `a`: the same, or a constraint with that root that lists the use. -/
def Stands (g : FlowGraph) (cs gone : List InstId) (ρ : InstId → InstId) (u : Use) (a₀ a : InstId) : Prop :=
  a = a₀ ∨ a ∈ cs ∧ ρ a = a₀ ∧ (u.user ∈ gone ∨ ∃ n, g.nodes[a.index]? = some n ∧ u ∈ n.inputUses)

/-- What has become of the instructions of `g₀` while the constraints `cs` with the roots `ρ` were made, and the
instructions `gone` were taken out. -/
structure Below (g₀ : FlowGraph) (cs gone : List InstId) (ρ : InstId → InstId) (g : FlowGraph) : Prop where
  size : g₀.nodes.size ≤ g.nodes.size
  fixed : ∀ d : InstId, d.index < g₀.nodes.size → ρ d = d
  fresh : ∀ c ∈ cs, g₀.nodes.size ≤ c.index
  constraint : ∀ c ∈ cs, ∃ n r a rest, g.nodes[c.index]? = some n ∧ n.inst = .constraint r (a :: rest) ∧
    Known g₀ cs a ∧ ρ a = ρ c
  plain : ∀ (c : InstId) n, g₀.nodes.size ≤ c.index → g.nodes[c.index]? = some n → n.env = none ∧ n.envUses = []
  old : ∀ (i : InstId) n₀, g₀.nodes[i.index]? = some n₀ → ∃ n f, g.nodes[i.index]? = some n ∧ n.env = n₀.env ∧
    (n.inst = n₀.inst.mapArgs f ∨ n.inst = (clearOverflow n₀.inst).mapArgs f) ∧
    ∀ k a₀, n₀.inst.args[k]? = some a₀ → Stands g cs gone ρ ⟨i, k⟩ a₀ (f k a₀)
  tracked : ∀ d n, Tracked g₀ d → g.nodes[d.index]? = some n → ∀ u ∈ n.inputUses,
    DeadPhi g₀ u.user ∨ Owed g₀ cs ρ u d
  owed : ∀ c ∈ cs, ∀ n, g.nodes[c.index]? = some n → ∀ u ∈ n.inputUses, Owed g₀ cs ρ u (ρ c)

namespace Below

theorem lt_size (h : Below g₀ cs gone ρ g) (hc : c ∈ cs) : c.index < g.nodes.size := by
  obtain ⟨n, -, -, -, hn, -⟩ := h.constraint c hc
  exact (Array.getElem?_eq_some_iff.mp hn).1

theorem not_mem (h : Below g₀ cs gone ρ g) (hi : i.index < g₀.nodes.size) : i ∉ cs :=
  fun hc => Nat.not_lt.mpr (h.fresh i hc) hi

theorem inputOf_eq_none (h : Below g₀ cs gone ρ g) (hc : c ∈ cs) (k : Nat) : inputOf g₀ c k = none := by
  rw [inputOf, Array.getElem?_eq_none (h.fresh c hc), Option.bind_none]

theorem start (g : FlowGraph) : Below g [] [] id g where
  size := Nat.le_refl _
  fixed _ _ := rfl
  fresh _ hc := nomatch hc
  constraint _ hc := nomatch hc
  plain c n hle hn := absurd (Array.getElem?_eq_some_iff.mp hn).1 (Nat.not_lt.mpr hle)
  old i n hn := ⟨n, fun _ a => a, hn, rfl, .inl Inst.mapArgs_id.symm, fun _ _ _ => .inl rfl⟩
  tracked d n hd hn u hu := by
    obtain ⟨m, hm, -, huses⟩ := hd
    obtain rfl := Option.some_inj.mp (hn.symm.trans hm)
    exact (huses u hu).imp id .inl
  owed _ hc := nomatch hc

/-! ## Reading -/

theorem node_of_old (h : Below g₀ cs gone ρ g) {n₀ : Node} (hn₀ : g₀.nodes[i.index]? = some n₀) :
    ∃ n, g.nodes[i.index]? = some n ∧ n.inst.opcode = n₀.inst.opcode ∧ n.inst.isAlivePhi = n₀.inst.isAlivePhi := by
  obtain ⟨n, f, hn, -, hinst | hinst, -⟩ := h.old i n₀ hn₀
  all_goals exact ⟨n, hn, by rw [hinst]; simp, by rw [hinst]; simp⟩

theorem isDead_of_deadPhi (h : Below g₀ cs gone ρ g) (hdead : DeadPhi g₀ u.user) {dead : Bool}
    (hrun : isDead g u = .ok dead) : dead = true := by
  obtain ⟨n₀, hn₀, hop, halive⟩ := hdead
  obtain ⟨n, hn, hop', halive'⟩ := h.node_of_old hn₀
  unfold isDead at hrun
  rw [opcode_eq_ok.mpr ⟨n, hn, hop'.trans hop⟩, isAlivePhi_eq_ok.mpr ⟨n, hn, halive'.trans halive⟩] at hrun
  exact (Except.ok.inj hrun).symm

/-- The inputs of an instruction that may be constrained may be constrained too, if they could be at first. -/
theorem known_arg (h : Below g₀ cs gone ρ g) {n₀ : Node} (hn₀ : g₀.nodes[i.index]? = some n₀)
    (hargs : ∀ a ∈ n₀.inst.args, Tracked g₀ a) {k : Nat} (hrun : g.arg i k = .ok a) : Known g₀ cs a := by
  obtain ⟨n, f, hn, -, hinst, hstands⟩ := h.old i n₀ hn₀
  have hargs' : n.inst.args = n₀.inst.args.mapIdx f := by
    obtain hinst | hinst := hinst
    all_goals rw [hinst]; simp
  obtain ⟨m, hm, ha⟩ := arg_eq_ok.mp hrun
  obtain rfl := Option.some_inj.mp (hn.symm.trans hm)
  rw [hargs', List.getElem?_mapIdx, Option.map_eq_some_iff] at ha
  obtain ⟨a₀, ha₀, rfl⟩ := ha
  obtain heq | ⟨hmem, -⟩ := hstands k a₀ ha₀
  · rw [heq]
    exact .inl (hargs a₀ (List.mem_of_getElem? ha₀))
  · exact .inr hmem

theorem unwrap (h : Below g₀ cs gone ρ g) (hd : Known g₀ cs d) (hrun : unwrap g d = .ok e) :
    Known g₀ cs e ∧ ρ e = ρ d := by
  unfold Ranges.unwrap at hrun
  generalize maxDepth = steps at hrun
  induction steps generalizing d with
  | zero =>
    obtain rfl := Except.ok.inj hrun
    exact ⟨hd, rfl⟩
  | succ steps ih =>
    obtain htracked | hc := hd
    · obtain ⟨n₀, hn₀, hop, -⟩ := id htracked
      obtain ⟨n, hn, hop', -⟩ := h.node_of_old hn₀
      have hinst : ∀ r as, n.inst ≠ .constraint r as := by
        intro r as heq
        rw [heq] at hop'
        exact hop hop'.symm
      rw [unwrapWithin, inst_eq_ok.mpr ⟨n, hn, rfl⟩] at hrun
      obtain rfl : d = e := by
        simp only [bind, Except.bind] at hrun
        exact Except.ok.inj hrun
      exact ⟨.inl htracked, rfl⟩
    · obtain ⟨n, r, a, rest, hn, hinst, ha, hroot⟩ := h.constraint d hc
      rw [unwrapWithin, inst_eq_ok.mpr ⟨n, hn, rfl⟩, hinst] at hrun
      obtain ⟨he, hroot'⟩ := ih ha hrun
      exact ⟨he, hroot'.trans hroot⟩

/-! ## Renaming -/

/-- The uses `us` now refer to `e`, which lists them. Other uses may have left the lists that are not kept any more. -/
structure Rewires (g₀ : FlowGraph) (cs gone : List InstId) (ρ : InstId → InstId) (us : List Use) (e j : InstId)
    (n n' : Node) : Prop where
  inst : n'.inst = n.inst.mapArgs fun k a => if ⟨j, k⟩ ∈ us then e else a
  env : n'.env = n.env
  envUses : n.envUses = [] → n'.envUses = []
  listed : ∀ u ∈ n'.inputUses, u ∈ n.inputUses ∨ Owed g₀ cs ρ u (ρ j)
  kept : ∀ u ∈ n.inputUses, u ∈ n'.inputUses ∨ u ∈ us ∨ u.user ∈ cs ∨ u.user ∈ gone
  taken : j = e → us ⊆ n'.inputUses

theorem rewire (h : Below g₀ cs gone ρ g) (us : List Use) (e : InstId) (he : us ≠ [] → Known g₀ cs e)
    (hus : ∀ u ∈ us, Owed g₀ cs ρ u (ρ e)) (hc : Changes g g' (Rewires g₀ cs gone ρ us e)) : Below g₀ cs gone ρ g' where
  size := hc.size ▸ h.size
  fixed := h.fixed
  fresh := h.fresh
  constraint c hmem := by
    obtain ⟨n, r, a, rest, hn, hinst, ha, hroot⟩ := h.constraint c hmem
    obtain ⟨n', hn', hchange⟩ := hc.exists_node hn
    have hinst' := hchange.inst
    rw [hinst, Inst.mapArgs, List.mapIdx_cons] at hinst'
    refine ⟨n', r, _, _, hn', hinst', ?_⟩
    split
    case isFalse => exact ⟨ha, hroot⟩
    case isTrue hu =>
      refine ⟨he (List.ne_nil_of_mem hu), ?_⟩
      obtain hold | ⟨-, hroot⟩ := hus _ hu
      · rw [h.inputOf_eq_none hmem] at hold
        cases hold
      · exact (hroot rfl).symm
  plain c n' hle hn' := by
    obtain ⟨n, hn, hchange⟩ := hc.node c n' hn'
    obtain ⟨henv, henvUses⟩ := h.plain c n hle hn
    exact ⟨hchange.env.trans henv, hchange.envUses henvUses⟩
  old i n₀ hn₀ := by
    obtain ⟨n, f, hn, henv, hinst, hstands⟩ := h.old i n₀ hn₀
    have hlt := (Array.getElem?_eq_some_iff.mp hn₀).1
    obtain ⟨n', hn', hchange⟩ := hc.exists_node hn
    refine ⟨n', fun k a => if ⟨i, k⟩ ∈ us then e else f k a, hn', hchange.env.trans henv, ?_, fun k a₀ ha₀ => ?_⟩
    · refine hinst.imp (fun hinst => ?_) fun hinst => ?_
      all_goals rw [hchange.inst, hinst, Inst.mapArgs_mapArgs]
    dsimp only
    split
    case isFalse hu =>
      obtain heq | ⟨hmem, hroot, hgone | ⟨m, hm, hlisted⟩⟩ := hstands k a₀ ha₀
      · exact .inl heq
      · exact .inr ⟨hmem, hroot, .inl hgone⟩
      obtain ⟨m', hm', hchange'⟩ := hc.exists_node hm
      obtain hkept | hmem' | hnew | hgone := hchange'.kept _ hlisted
      · exact .inr ⟨hmem, hroot, .inr ⟨m', hm', hkept⟩⟩
      · exact absurd hmem' hu
      · exact absurd hnew (h.not_mem hlt)
      · exact .inr ⟨hmem, hroot, .inl hgone⟩
    case isTrue hu =>
      have hroot : ρ e = a₀ := by
        obtain hold | ⟨hnew, -⟩ := hus _ hu
        · rw [inputOf, hn₀, Option.bind_some, ha₀] at hold
          exact (Option.some_inj.mp hold).symm
        · exact absurd hnew (h.not_mem hlt)
      obtain htracked | hmem := he (List.ne_nil_of_mem hu)
      · exact .inl ((h.fixed e htracked.lt_size).symm.trans hroot)
      · obtain ⟨m, -, -, -, hm, -⟩ := h.constraint e hmem
        obtain ⟨m', hm', hchange'⟩ := hc.exists_node hm
        exact .inr ⟨hmem, hroot, .inr ⟨m', hm', hchange'.taken rfl hu⟩⟩
  tracked d n' hd hn' u hu := by
    obtain ⟨n, hn, hchange⟩ := hc.node d n' hn'
    obtain hu | hu := hchange.listed u hu
    · exact h.tracked d n hd hn u hu
    · rw [h.fixed d hd.lt_size] at hu
      exact .inr hu
  owed c hmem n' hn' u hu := by
    obtain ⟨n, hn, hchange⟩ := hc.node c n' hn'
    obtain hu | hu := hchange.listed u hu
    · exact h.owed c hmem n hn u hu
    · exact hu

theorem books (h : Below g₀ cs gone ρ g) (hc : Changes g g' fun _ n n' => n'.inst = n.inst ∧ n'.env = n.env ∧
    n'.inputUses = n.inputUses ∧ n'.envUses = n.envUses) : Below g₀ cs gone ρ g' := by
  refine h.rewire [] .unset (fun hne => absurd rfl hne) (fun u hu => nomatch hu) (hc.mono ?_)
  rintro j n n' ⟨hinst, henv, huses, henvUses⟩
  refine ⟨by simp [hinst], henv, fun h => henvUses.trans h, fun u hu => .inl (huses ▸ hu), fun u hu =>
    .inl (huses ▸ hu), fun _ u hu => nomatch hu⟩

theorem withGone (h : Below g₀ cs gone ρ g) {gone' : List InstId} (hsub : gone ⊆ gone') : Below g₀ cs gone' ρ g :=
  { h with
    old := fun i n₀ hn₀ => by
      obtain ⟨n, f, hn, henv, hinst, hstands⟩ := h.old i n₀ hn₀
      refine ⟨n, f, hn, henv, hinst, fun k a₀ ha₀ => ?_⟩
      obtain heq | ⟨hmem, hroot, hgone | hlisted⟩ := hstands k a₀ ha₀
      · exact .inl heq
      · exact .inr ⟨hmem, hroot, .inl (hsub hgone)⟩
      · exact .inr ⟨hmem, hroot, .inr hlisted⟩ }

theorem clear (h : Below g₀ cs gone ρ g) :
    Below g₀ cs gone ρ (g.withNode d fun n => { n with inst := clearOverflow n.inst }) := by
  have hc : Changes g (g.withNode d fun n => { n with inst := clearOverflow n.inst }) fun j n n' =>
      (n'.inst = n.inst ∨ n'.inst = clearOverflow n.inst) ∧ n'.env = n.env ∧ n'.inputUses = n.inputUses ∧
        n'.envUses = n.envUses := by
    refine .mapNodes rfl fun j n => ?_
    split
    · exact ⟨.inr rfl, rfl, rfl, rfl⟩
    · exact ⟨.inl rfl, rfl, rfl, rfl⟩
  refine ⟨hc.size ▸ h.size, h.fixed, h.fresh, fun c hmem => ?_, fun c n' hle hn' => ?_, fun i n₀ hn₀ => ?_,
    fun d n' hd hn' => ?_, fun c hmem n' hn' => ?_⟩
  · obtain ⟨n, r, a, rest, hn, hinst, hrest⟩ := h.constraint c hmem
    obtain ⟨n', hn', hinst', -⟩ := hc.exists_node hn
    rw [hinst] at hinst'
    exact ⟨n', r, a, rest, hn', hinst'.elim id id, hrest⟩
  · obtain ⟨n, hn, -, henv, -, henvUses⟩ := hc.node c n' hn'
    rw [henv, henvUses]
    exact h.plain c n hle hn
  · obtain ⟨n, f, hn, henv, hinst, hstands⟩ := h.old i n₀ hn₀
    obtain ⟨n', hn', hinst', henv', -⟩ := hc.exists_node hn
    refine ⟨n', f, hn', henv'.trans henv, ?_, fun k a₀ ha₀ => ?_⟩
    · obtain hinst' | hinst' := hinst'
      · rwa [hinst']
      · right
        obtain hinst | hinst := hinst
        all_goals rw [hinst', hinst, clearOverflow_mapArgs]
        rw [clearOverflow_clearOverflow]
    · obtain heq | ⟨hmem, hroot, hgone | ⟨m, hm, hlisted⟩⟩ := hstands k a₀ ha₀
      · exact .inl heq
      · exact .inr ⟨hmem, hroot, .inl hgone⟩
      · obtain ⟨m', hm', -, -, huses, -⟩ := hc.exists_node hm
        exact .inr ⟨hmem, hroot, .inr ⟨m', hm', huses ▸ hlisted⟩⟩
  · obtain ⟨n, hn, -, -, huses, -⟩ := hc.node d n' hn'
    rw [huses]
    exact h.tracked d n hd hn
  · obtain ⟨n, hn, -, -, huses, -⟩ := hc.node c n' hn'
    rw [huses]
    exact h.owed c hmem n hn

/-! ## New instructions -/

theorem withInst (h : Below g₀ cs gone ρ g) (inst : Inst) : Below g₀ cs gone ρ (g.withInst { inst }) := by
  have hlt {j : InstId} {m : Node} (hm : g.nodes[j.index]? = some m) : (g.withInst { inst }).nodes[j.index]? =
    some m := by
    rw [nodes_withInst, if_neg ?_, hm]
    rintro rfl
    exact Nat.lt_irrefl _ (Array.getElem?_eq_some_iff.mp hm).1
  have hback {j : InstId} {m : Node} (hm : (g.withInst { inst }).nodes[j.index]? = some m) :
      g.nodes[j.index]? = some m ∨ j = g.nextId ∧ m = { inst } := by
    rw [nodes_withInst] at hm
    split at hm
    case isTrue hj => exact .inr ⟨hj, (Option.some_inj.mp hm).symm⟩
    case isFalse => exact .inl hm
  refine ⟨Nat.le_trans h.size (by simp), h.fixed, h.fresh, fun c hmem => ?_, fun c n hle hn => ?_, fun i n₀ hn₀ => ?_,
    fun d n hd hn => ?_, fun c hmem n hn => ?_⟩
  · obtain ⟨n, r, a, rest, hn, hrest⟩ := h.constraint c hmem
    exact ⟨n, r, a, rest, hlt hn, hrest⟩
  · obtain hn | ⟨-, rfl⟩ := hback hn
    · exact h.plain c n hle hn
    · exact ⟨rfl, rfl⟩
  · obtain ⟨n, f, hn, henv, hinst, hstands⟩ := h.old i n₀ hn₀
    refine ⟨n, f, hlt hn, henv, hinst, fun k a₀ ha₀ => ?_⟩
    obtain heq | ⟨hmem, hroot, hgone | ⟨m, hm, hlisted⟩⟩ := hstands k a₀ ha₀
    · exact .inl heq
    · exact .inr ⟨hmem, hroot, .inl hgone⟩
    · exact .inr ⟨hmem, hroot, .inr ⟨m, hlt hm, hlisted⟩⟩
  · obtain hn | ⟨rfl, rfl⟩ := hback hn
    · exact h.tracked d n hd hn
    · exact fun u hu => nomatch hu
  · obtain hn | ⟨rfl, rfl⟩ := hback hn
    · exact h.owed c hmem n hn
    · exact fun u hu => nomatch hu

def rootWith (ρ : InstId → InstId) (c d : InstId) (x : InstId) : InstId := if x = c then ρ d else ρ x

theorem withConstraint (h : Below g₀ cs gone ρ g) (hd : Known g₀ cs d) {r : Range} {rest : List InstId} :
    Below g₀ (cs ++ [g.nextId]) gone (rootWith ρ g.nextId d) (g.withInst { inst := .constraint r (d :: rest) }) := by
  have hinst := h.withInst (.constraint r (d :: rest))
  have hle : g₀.nodes.size ≤ g.nextId.index := h.size
  have hne (c : InstId) (hc : c ∈ cs) : c ≠ g.nextId := by
    rintro rfl
    exact Nat.lt_irrefl _ (h.lt_size hc)
  have hroot (c : InstId) (hc : c ∈ cs) : rootWith ρ g.nextId d c = ρ c := if_neg (hne c hc)
  have hfixed (x : InstId) (hx : x.index < g₀.nodes.size) : rootWith ρ g.nextId d x = x := by
    rw [rootWith, if_neg ?_, h.fixed x hx]
    rintro rfl
    exact Nat.not_lt.mpr hle hx
  have hknown (x : InstId) (hx : Known g₀ cs x) : rootWith ρ g.nextId d x = ρ x := by
    obtain hx | hx := hx
    · rw [hfixed x hx.lt_size, h.fixed x hx.lt_size]
    · exact hroot x hx
  have howed (u : Use) (x : InstId) (hu : Owed g₀ cs ρ u x) :
      Owed g₀ (cs ++ [g.nextId]) (rootWith ρ g.nextId d) u x := by
    refine hu.imp id fun ⟨hc, hx⟩ => ⟨List.mem_append_left _ hc, fun h0 => ?_⟩
    rw [hroot _ hc, hx h0]
  have hnode : (g.withInst { inst := .constraint r (d :: rest) }).nodes[g.nextId.index]? =
      some { inst := .constraint r (d :: rest) } := by rw [nodes_withInst, if_pos rfl]
  refine ⟨hinst.size, hfixed, fun c hmem => ?_, fun c hmem => ?_, hinst.plain, fun i n₀ hn₀ => ?_,
    fun x n hx hn u hu => ?_, fun c hmem n hn u hu => ?_⟩
  · obtain hmem | rfl := List.mem_append.mp hmem |>.imp id List.mem_singleton.mp
    · exact h.fresh c hmem
    · exact hle
  · obtain hmem | rfl := List.mem_append.mp hmem |>.imp id List.mem_singleton.mp
    · obtain ⟨n, r', a, rest', hn, hinst', ha, haroot⟩ := hinst.constraint c hmem
      refine ⟨n, r', a, rest', hn, hinst', ha.mono (List.subset_append_left _ _), ?_⟩
      rw [hknown a ha, haroot, hroot c hmem]
    · refine ⟨_, r, d, rest, hnode, rfl, hd.mono (List.subset_append_left _ _), ?_⟩
      rw [hknown d hd, rootWith, if_pos rfl]
  · obtain ⟨n, f, hn, henv, hi, hstands⟩ := hinst.old i n₀ hn₀
    refine ⟨n, f, hn, henv, hi, fun k a₀ ha₀ => ?_⟩
    refine (hstands k a₀ ha₀).imp id fun ⟨hmem, haroot, hlisted⟩ => ⟨List.mem_append_left _ hmem, ?_, hlisted⟩
    rw [hroot _ hmem, haroot]
  · exact (hinst.tracked x n hx hn u hu).imp id (howed u x)
  · obtain hmem | rfl := List.mem_append.mp hmem |>.imp id List.mem_singleton.mp
    · rw [hroot c hmem]
      exact howed u _ (hinst.owed c hmem n hn u hu)
    · rw [hnode] at hn
      obtain rfl := Option.some_inj.mp hn
      cases hu

end Below

/-! ## Places -/

/-- The instructions of `g₀` are where they were, apart from those that are gone. What else is placed is a constraint.
-/
structure Spread (g₀ : FlowGraph) (cs gone : List InstId) (l : Layout) : Prop where
  sound : l.Sound
  kept : ∀ b, (l.insts b).filter (·.index < g₀.nodes.size) = (g₀.insts b).filter (· ∉ gone)
  placed : ∀ b, ∀ c ∈ l.insts b, c.index < g₀.nodes.size ∨ c ∈ cs

namespace Spread

variable {l : Layout}

theorem place (h : Spread g₀ cs gone l) (hc : c ∈ cs) (hle : g₀.nodes.size ≤ c.index) (hfree : l.home? c = none)
    {is : List InstId} (hperm : is.Perm (c :: l.insts b))
    (hkept : is.filter (·.index < g₀.nodes.size) = (l.insts b).filter (·.index < g₀.nodes.size)) :
    Spread g₀ cs gone (l.place c b is) where
  sound := h.sound.place hfree hperm
  kept x := by
    rw [Layout.insts_place]
    split
    case isTrue hx =>
      subst hx
      rw [hkept, h.kept]
    case isFalse => exact h.kept x
  placed x d hd := by
    rw [Layout.insts_place] at hd
    split at hd
    case isTrue hx =>
      obtain rfl | hd := List.mem_cons.mp (hperm.mem_iff.mp hd)
      · exact .inr hc
      · exact h.placed b d hd
    case isFalse => exact h.placed x d hd

theorem unplace (h : Spread g₀ cs gone l) (hi : i.index < g₀.nodes.size ∨ i ∈ cs) (hb : l.home? i = some b)
    {gone' : List InstId} (hgone : ∀ x, x ∈ gone' ↔ x ∈ gone ∨ x = i ∧ i.index < g₀.nodes.size) :
    Spread g₀ cs gone' (l.unplace i b) where
  sound := h.sound.unplace hb
  kept x := by
    have hsplit : (g₀.insts x).filter (· ∉ gone') =
        ((g₀.insts x).filter (· ∉ gone)).filter fun y => ¬ (y = i ∧ i.index < g₀.nodes.size) := by
      rw [List.filter_filter]
      refine List.filter_congr fun y _ => ?_
      simp only [hgone, not_or, Bool.decide_and, Bool.and_comm]
    have hnodup := h.sound.nodup x
    rw [hsplit, ← h.kept, List.filter_filter, Layout.insts_unplace]
    split
    case isTrue hx =>
      subst hx
      rw [hnodup.erase_eq_filter, List.filter_filter]
      refine List.filter_congr fun y hy => ?_
      by_cases hyi : y = i <;> simp [hyi]
    case isFalse hx =>
      refine List.filter_congr fun y hy => ?_
      have hne : y ≠ i := by
        rintro rfl
        exact hx (Option.some_inj.mp ((h.sound.mem_iff.mp hy).symm.trans hb))
      simp [hne]
  placed x d hd := by
    rw [Layout.insts_unplace] at hd
    split at hd
    · exact h.placed b d (List.mem_of_mem_erase hd)
    · exact h.placed x d hd

end Spread

/-- All of the graph but its instructions, their order and its loops. -/
def shell (g : FlowGraph) : FlowGraph :=
  { g with
    nodes := #[], layout := {}, nextSsaIndex := 0, reaching := []
    blocks := g.blocks.map fun k => { k with loop := none } }

/-- The graph `g₀` can be seen in `g`, behind the constraints `cs` with the roots `ρ`. Only bounds checks are gone. -/
structure Veil (g₀ : FlowGraph) (cs gone : List InstId) (ρ : InstId → InstId) (g : FlowGraph) : Prop where
  below : Below g₀ cs gone ρ g
  spread : Spread g₀ cs gone g.layout
  shell : shell g = shell g₀
  checks : ∀ i ∈ gone, ∃ n₀, g₀.nodes[i.index]? = some n₀ ∧ n₀.inst.opcode = .checkArrayBound

/-! ## Edits -/

namespace Veil

theorem start (hsound : g.layout.Sound) (hbounded : ∀ b, ∀ i ∈ g.insts b, i.index < g.nodes.size) :
    Veil g [] [] id g where
  below := .start g
  spread := by
    refine ⟨hsound, fun b => ?_, fun b i hi => .inl (hbounded b i hi)⟩
    have hall : (g.insts b).filter (·.index < g.nodes.size) = g.insts b :=
      List.filter_eq_self.mpr fun i hi => decide_eq_true (hbounded b i hi)
    have hnone : (g.insts b).filter (· ∉ ([] : List InstId)) = g.insts b :=
      List.filter_eq_self.mpr fun i _ => by simp
    exact hall.trans hnone.symm
  shell := rfl
  checks _ hi := nomatch hi

theorem modifyNode (h : Veil g₀ cs gone ρ g) {f : Node → Node} (hf : ∀ n, (f n).inst = n.inst ∧ (f n).env = n.env ∧
    (f n).inputUses = n.inputUses ∧ (f n).envUses = n.envUses) :
    Leads True g (Edit.modifyNode i f) fun _ g' => Veil g₀ cs gone ρ g' := by
  rw [Leads.modifyNode_iff]
  refine ⟨fun _ => ⟨h.below.books (.mapNodes rfl fun j n => ?_), h.spread, h.shell, h.checks⟩, fun _ => trivial⟩
  split
  · exact hf n
  · exact ⟨rfl, rfl, rfl, rfl⟩

theorem setRange (h : Veil g₀ cs gone ρ g) {r : Option Range} :
    Leads True g (Edit.setRange i r) fun _ g' => Veil g₀ cs gone ρ g' :=
  h.modifyNode fun _ => ⟨rfl, rfl, rfl, rfl⟩

theorem allocSsaIndex (h : Veil g₀ cs gone ρ g) :
    Leads True g (Edit.allocSsaIndex i) fun _ g' => Veil g₀ cs gone ρ g' := by
  rw [Leads.allocSsaIndex_iff]
  refine ⟨fun _ => ⟨h.below.books (.mapNodes (f := fun j n =>
    if j = i then { n with ssaIndex := some g.nextSsaIndex } else n) rfl fun j n => ?_), h.spread, h.shell, h.checks⟩,
    fun _ => trivial⟩
  split <;> exact ⟨rfl, rfl, rfl, rfl⟩

theorem setArg (h : Veil g₀ cs gone ρ g) {user : InstId} {k : Nat} (hc : c ∈ cs)
    (howed : Owed g₀ cs ρ ⟨user, k⟩ (ρ c)) :
    Leads True g (Edit.setArg user k c) fun _ g' => Veil g₀ cs gone ρ g' := by
  refine Leads.setArg_of_ok.mono ?_
  rintro _ _ ⟨a, rfl⟩
  refine ⟨h.below.rewire [⟨user, k⟩] c (fun _ => .inr hc) (by simpa using howed)
    (.rewired fun j n => ?_), h.spread, h.shell, h.checks⟩
  refine ⟨?_, rfl, id, fun u hu => ?_, fun u hu => ?_, fun hj => ?_⟩
  · by_cases hj : j = user
    · simp [hj, Inst.setArg]
    · simp [hj]
  · obtain hu | hu := List.mem_append.mp hu
    · left
      split at hu
      · exact List.mem_of_mem_filter hu
      · exact hu
    · split at hu
      case isTrue hj =>
        rw [List.mem_singleton.mp hu, hj]
        exact .inr howed
      case isFalse => cases hu
  · by_cases heq : u = ⟨user, k⟩
    · exact .inr (.inl (List.mem_singleton.mpr heq))
    · refine .inl (List.mem_append_left _ ?_)
      split
      · exact List.mem_filter.mpr ⟨hu, bne_iff_ne.mpr heq⟩
      · exact hu
  · rw [if_pos hj]
    exact List.subset_append_right _ _

theorem renameBehind (h : Veil g₀ cs gone ρ g) (hc : c ∈ cs) (hd : Known g₀ cs d) (hroot : ρ c = ρ d) {p : Position} :
    Leads True g (Ranges.renameBehind p d c) fun _ g' => Veil g₀ cs gone ρ g' := by
  unfold Ranges.renameBehind
  rw [Leads.bind_iff, Leads.get_iff, Leads.bind_iff, Leads.lift_iff]
  refine Yields.of_ok fun uses huses => ?_
  obtain ⟨n, hn, rfl⟩ := inputUses_eq_ok.mp huses
  have howed (u : Use) (hu : u ∈ n.inputUses) : DeadPhi g₀ u.user ∨ Owed g₀ cs ρ u (ρ c) := by
    rw [hroot]
    obtain hd | hd := hd
    · rw [h.below.fixed d hd.lt_size]
      exact h.below.tracked d n hd hn u hu
    · exact .inr (h.below.owed d hd n hn u hu)
  refine Leads.forM_of_forall (Veil g₀ cs gone ρ) h fun u hu g₁ h₁ => ?_
  split
  · exact h₁
  rw [Leads.bind_iff, Leads.get_iff, Leads.bind_iff, Leads.lift_iff]
  refine Yields.of_ok fun dead hdead => ?_
  split
  · exact h₁
  case isFalse halive =>
    rw [Leads.bind_iff, Leads.get_iff, Leads.bind_iff, Leads.lift_iff]
    refine Yields.of_ok fun behind _ => ?_
    split
    · obtain hphi | howed := howed u hu
      · exact absurd (h₁.below.isDead_of_deadPhi hphi hdead) halive
      · exact h₁.setArg hc howed
    · exact h₁

theorem addUses (h : Veil g₀ cs gone ρ g) (hc : c ∈ cs) :
    Leads True g (Edit.addUses c) fun _ g' => Veil g₀ cs gone ρ g' := by
  obtain ⟨n, r, a, rest, hn, hinst, ha, hroot⟩ := h.below.constraint c hc
  have henv : n.envValues = [] := by rw [Node.envValues, (h.below.plain c n (h.below.fresh c hc) hn).1]; rfl
  unfold Edit.addUses Edit.addInputUses
  rw [Leads.bind_iff, Leads.bind_iff, Leads.get_iff, Leads.bind_iff, Leads.lift_iff, args_eq_ok.mpr ⟨n, hn, rfl⟩,
    Yields.ok_iff]
  refine (Leads.forM_of_forall (fun g₁ => Veil g₀ cs gone ρ g₁ ∧ ∃ n₁, g₁.nodes[c.index]? = some n₁ ∧
    n₁.env = n.env) ⟨h, n, hn, rfl⟩ ?_).mono fun _ g₁ h₁ => ?_
  · rintro ⟨d, u⟩ hu g₁ ⟨h₁, n₁, hn₁, henv₁⟩
    obtain ⟨huser, hget⟩ := Edit.mem_usesBy.mp hu
    have howed : Owed g₀ cs ρ u (ρ d) := by
      refine .inr ⟨huser ▸ hc, fun hzero => ?_⟩
      rw [hzero, hinst] at hget
      obtain rfl := Option.some_inj.mp hget
      rw [huser, hroot]
    unfold Edit.addInputUse
    rw [Leads.modifyNode?_iff]
    refine ⟨⟨h₁.below.rewire [] .unset (fun hne => absurd rfl hne) (fun u hu => absurd hu List.not_mem_nil)
      (.mapNodes rfl fun j m => ?_), h₁.spread, h₁.shell, h₁.checks⟩, ?_⟩
    · dsimp only
      split
      case isTrue hj =>
        subst hj
        refine ⟨by simp, rfl, id, fun v hv => ?_, fun v hv => .inl (List.mem_append_left _ hv),
          fun _ v hv => absurd hv List.not_mem_nil⟩
        obtain hv | hv := List.mem_append.mp hv
        · exact .inl hv
        · rw [List.mem_singleton.mp hv]
          exact .inr howed
      case isFalse =>
        exact ⟨by simp, rfl, id, fun v hv => .inl hv, fun v hv => .inl hv, fun _ v hv => absurd hv List.not_mem_nil⟩
    · rw [nodes_withNode, hn₁]
      refine ⟨_, rfl, ?_⟩
      dsimp only
      split <;> exact henv₁
  · obtain ⟨h₁, n₁, hn₁, henv₁⟩ := h₁
    unfold Edit.addEnvUses
    rw [Leads.bind_iff, Leads.envValues_iff]
    refine ⟨fun m hm => ?_, fun _ => trivial⟩
    obtain rfl := Option.some_inj.mp (hn₁.symm.trans hm)
    have hnil : n₁.envValues = [] := by rw [Node.envValues, henv₁]; exact henv
    rw [hnil]
    exact h₁

theorem placed (h : Veil g₀ cs gone ρ g) (hc : c ∈ cs) (hfree : g.layout.home? c = none) {is : List InstId}
    (hperm : is.Perm (c :: g.insts b))
    (hkept : is.filter (·.index < g₀.nodes.size) = (g.insts b).filter (·.index < g₀.nodes.size))
    (home : Option BlockId) : Leads True (g.withLayout (g.layout.place c b is))
    (do Edit.setBlock c home; Edit.addUses c)
      fun _ g' => Veil g₀ cs gone ρ g' := by
  have hplaced : Veil g₀ cs gone ρ (g.withLayout (g.layout.place c b is)) :=
    ⟨h.below.books ⟨rfl, fun j n hn => ⟨n, hn, rfl, rfl, rfl, rfl⟩⟩,
      h.spread.place hc (h.below.fresh c hc) hfree hperm hkept, h.shell, h.checks⟩
  rw [Leads.bind_iff, Edit.setBlock]
  refine Leads.mono (hplaced.modifyNode ?_) fun _ g₁ h₁ => h₁.addUses hc
  exact fun _ => ⟨rfl, rfl, rfl, rfl⟩

theorem prepend (h : Veil g₀ cs gone ρ g) (hc : c ∈ cs) :
    Leads True g (Edit.prepend b c) fun _ g' => Veil g₀ cs gone ρ g' := by
  have hnew : ¬ c.index < g₀.nodes.size := Nat.not_lt.mpr (h.below.fresh c hc)
  unfold Edit.prepend
  rw [Leads.bind_iff, Leads.onLayout_iff]
  refine Yields.of_ok fun l hl => ?_
  obtain ⟨hfree, rfl⟩ := Layout.prepend_eq_ok.mp hl
  exact h.placed hc hfree (.refl _) (by simp [hnew, FlowGraph.insts]) (some b)

theorem insertAfter (h : Veil g₀ cs gone ρ g) (hc : c ∈ cs) :
    Leads True g (Edit.insertAfter a c) fun _ g' => Veil g₀ cs gone ρ g' := by
  have hnew : decide (c.index < g₀.nodes.size) = false := decide_eq_false (Nat.not_lt.mpr (h.below.fresh c hc))
  unfold Edit.insertAfter Edit.linkAfter
  rw [Leads.bind_iff, Leads.bind_iff, Leads.onLayout_iff]
  refine Yields.of_ok fun l hl => ?_
  obtain ⟨b, hb, hfree, rfl⟩ := Layout.insertAfter_eq_ok.mp hl
  rw [Leads.bind_iff, Leads.get_iff, Leads.bind_iff, Leads.lift_iff]
  refine Yields.of_ok fun m _ => ?_
  have hrun := h.placed hc hfree (Layout.putAfter_perm (h.spread.sound.mem_iff.mpr hb)) (Layout.filter_putAfter hnew _)
    m.block
  rwa [Leads.bind_iff] at hrun

/-! ## Taking out -/

theorem below_removed (h : Below g₀ cs gone ρ g) (hi : i ∈ cs ∨ i ∈ gone) :
    Below g₀ cs gone ρ (g.removed i n b) := by
  refine h.rewire [] .unset (fun hne => absurd rfl hne) (fun u hu => nomatch hu)
    (.removed fun j m _ _ => ?_)
  refine ⟨by simp [Node.dropUses], rfl, fun hnil => by simp [Node.dropUses, hnil], fun u hu => ?_, fun u hu => ?_,
    fun _ u hu => nomatch hu⟩
  · exact .inl (List.mem_of_mem_filter hu)
  · by_cases hmem : (j, u) ∈ Edit.usesBy i n.inst.args
    · obtain ⟨huser, -⟩ := Edit.mem_usesBy.mp hmem
      rw [huser]
      exact .inr (.inr hi)
    · exact .inl (List.mem_filter.mpr ⟨hu, decide_eq_true hmem⟩)

theorem removeCheck (h : Veil g₀ cs gone ρ g) {n₀ : Node} (hn₀ : g₀.nodes[i.index]? = some n₀)
    (hcheck : n₀.inst.opcode = .checkArrayBound) :
    Leads True g (Edit.remove i) fun _ g' => Veil g₀ cs (i :: gone) ρ g' := by
  have hlt := (Array.getElem?_eq_some_iff.mp hn₀).1
  refine Leads.remove_of_ok.mono ?_
  rintro _ _ ⟨n, b, -, hb, rfl⟩
  refine ⟨below_removed (h.below.withGone (List.subset_cons_self _ _)) (.inr List.mem_cons_self),
    h.spread.unplace (.inl hlt) hb fun x => ?_, h.shell, fun x hx => ?_⟩
  · simp [hlt, or_comm]
  · obtain rfl | hx := List.mem_cons.mp hx
    · exact ⟨n₀, hn₀, hcheck⟩
    · exact h.checks x hx

theorem removeConstraint (h : Veil g₀ cs gone ρ g) (hc : c ∈ cs) : Leads True g (Edit.remove c) fun _ g' =>
    Veil g₀ cs gone ρ g' ∧ (∃ n, g.nodes[c.index]? = some n ∧ n.inputUses = []) ∧
      (∃ b, g.layout.home? c = some b ∧ g'.layout = g.layout.unplace c b) ∧
      Changes g g' fun _ n n' => n'.inputUses ⊆ n.inputUses := by
  obtain ⟨n, -, -, -, hn, -⟩ := h.below.constraint c hc
  refine (Leads.remove hn fun hfault => absurd trivial hfault).mono ?_
  rintro _ _ ⟨hunused, -, b, hb, rfl⟩
  refine ⟨⟨below_removed h.below (.inl hc), h.spread.unplace (.inr hc) hb fun x => ?_, h.shell, h.checks⟩,
    ⟨n, hn, hunused⟩, ⟨b, hb, rfl⟩, .removed fun j m _ _ => ?_⟩
  · simp [Nat.not_lt.mpr (h.below.fresh c hc)]
  · exact fun u hu => List.mem_of_mem_filter hu

/-- A constraint gives way to what has the same root. -/
theorem replaceUses (h : Veil g₀ cs gone ρ g) (hc : c ∈ cs) (he : Known g₀ cs e) (hroot : ρ e = ρ c) :
    Leads True g (Edit.replaceUses c e) fun _ g' => Veil g₀ cs gone ρ g' := by
  by_cases hne : c = e
  · unfold Edit.replaceUses
    rw [if_pos hne]
    exact h
  refine Leads.replaceUses_of_ok.mono ?_
  rintro _ _ (⟨heq, -⟩ | ⟨n, hn, rfl⟩)
  · exact absurd heq hne
  have hnil : n.envUses = [] := (h.below.plain c n (h.below.fresh c hc) hn).2
  refine ⟨h.below.rewire n.inputUses e (fun _ => he) (fun u hu => ?_) (.redirected fun j m hm => ?_), h.spread, h.shell,
    h.checks⟩
  · rw [hroot]
    exact h.below.owed c hc n hn u hu
  rw [hnil, Node.redirectEnv_nil]
  unfold Node.takeOver
  split
  case isTrue hj =>
    subst hj
    obtain rfl := Option.some_inj.mp (hn.symm.trans hm)
    exact ⟨rfl, rfl, fun _ => rfl, (fun u hu => nomatch hu), fun u hu => .inr (.inl hu), fun heq => absurd heq hne⟩
  split
  case isTrue hj =>
    subst hj
    refine ⟨rfl, rfl, fun hnil => by simp [Node.redirectInputs, hnil], fun u hu => ?_,
      fun u hu => .inl (List.mem_append_left _ hu), fun _ => List.subset_append_right _ _⟩
    refine (List.mem_append.mp hu).imp id fun hu => ?_
    rw [hroot]
    exact h.below.owed c hc n hn u hu
  case isFalse hj => exact ⟨rfl, rfl, id, fun u hu => .inl hu, fun u hu => .inl hu, fun heq => absurd heq hj⟩

end Veil

end Midend.Ranges
