import Midend.Proofs.Flow.Exact
import Midend.Proofs.Ssa.Sound

/-! # Paths

A path from the graph entry is run on the graph before construction, where the variables hold values, and on the
graph after it, where phis pass them on. A block that every path to another one goes through is above it in the
tree, and a variable without a phi holds at the end of each predecessor what it holds at the end of the dominator.
-/

namespace Midend

open Midend.Flow

namespace Ssa

/-! ## Runs -/

/-- How a state changes along a path: on the way into a block, and with each of the instructions there. An
instruction is told how many blocks the path had behind it. -/
structure Machine (σ : Type) where
  start : σ
  enter : BlockId → BlockId → σ → σ
  exec : Nat → σ → InstId → σ
  code : BlockId → List InstId

namespace Machine

variable {σ : Type} (m : Machine σ)

def after : List BlockId → σ
  | [] => m.start
  | b :: path => (m.code b).foldl (m.exec path.length) (m.enter (path.headD FlowGraph.graphEntry) b (after path))

/-- The state in the block `b` at the end of a path, once the instructions of `done` have run. -/
def before (path : List BlockId) (b : BlockId) (done : List InstId) : σ :=
  done.foldl (m.exec path.length) (m.enter (path.headD FlowGraph.graphEntry) b (m.after path))

theorem before_concat (path : List BlockId) (b : BlockId) (done : List InstId) (i : InstId) :
    m.before path b (done ++ [i]) = m.exec path.length (m.before path b done) i := by simp [before]

end Machine

/-- A value, as far as runs can tell values apart. Each execution of an instruction gives one of its own. -/
inductive Datum
  | parameter (k : Nat)
  | null
  | outcome (i : InstId) (visit : Nat)
deriving DecidableEq

/-- What the variables hold, and what each instruction gave when it last ran. -/
structure Locals where
  slots : Nat → Option Datum
  latest : InstId → Option Datum

/-- Variables are written by stores and read by loads. A store evaluates to what it stores. -/
def Locals.exec (r : FlowGraph) (visit : Nat) (σ : Locals) (i : InstId) : Locals :=
  match (r.nodes[i.index]?).map Node.inst with
  | some (.storeLocal slot a) =>
    ⟨Function.update σ.slots slot (σ.latest a), Function.update σ.latest i (σ.latest a)⟩
  | some (.loadLocal slot) => { σ with latest := Function.update σ.latest i (σ.slots slot) }
  | _ => { σ with latest := Function.update σ.latest i (some (.outcome i visit)) }

def initialDatum (r : FlowGraph) (k : Nat) : Datum := if k < r.parameterCount then .parameter k else .null

def localsRun (r : FlowGraph) : Machine Locals where
  start := ⟨fun k => some (initialDatum r k), fun _ => none⟩
  enter _ _ σ := σ
  exec := Locals.exec r
  code := r.insts

abbrev Values := InstId → Option Datum

/-- The parameters and the null constant are there from the start. -/
def Values.start (g : FlowGraph) : Values := fun d =>
  if d ∈ g.initialDefinitions then
    match (g.nodes[d.index]?).map Node.inst with
    | some (.parameter k) => some (.parameter k)
    | some (.constant .null) => some .null
    | _ => none
  else none

/-- Each live phi takes the input that belongs to the edge, all of them at once. -/
def Values.enter (g : FlowGraph) (p b : BlockId) (τ : Values) : Values := fun d =>
  if d ∈ phisOf g b ∧ aliveIn g d = true then
    match g.predIndex b p with
    | .ok (some j) => (inputOf g d j).bind τ
    | _ => none
  else τ d

def valuesRun (g : FlowGraph) : Machine Values where
  start := .start g
  enter := .enter g
  exec visit τ i := Function.update τ i (some (.outcome i visit))
  code := g.insts

/-- The phi that a variable got its value from, unless it was stored to since. -/
abbrev Sources := Nat → Option InstId

def Sources.exec (r : FlowGraph) (ρ : Sources) (i : InstId) : Sources :=
  match (r.nodes[i.index]?).map Node.inst with
  | some (.storeLocal slot _) => Function.update ρ slot none
  | _ => ρ

def Sources.enter (p : FlowGraph) (phis : List InstId) (ρ : Sources) : Sources :=
  phis.foldl (fun ρ phi => Function.update ρ (slotOf p phi) (some phi)) ρ

/-- Where the values of the variables come from, along a path of the graph `r` with the phis of `p`. -/
def sourcesRun (r p : FlowGraph) : Machine Sources where
  start _ := none
  enter _ b := .enter p (phisOf p b)
  exec _ := .exec r
  code := r.insts

/-! ## Paths and the tree -/

section Tree

variable {r : FlowGraph} {t : Tour} {a b c d p : BlockId} (ht : Touring r t [])

include ht

theorem mem_preorder_of_isPath {path : List BlockId} (hpath : r.IsPath (b :: path)) : b ∈ t.preorder :=
  ht.mem_preorder_iff_reachable.mpr hpath.reachable

theorem mem_preds_of_isPath {path : List BlockId} (hpath : r.IsPath (b :: p :: path)) : p ∈ t.preds b := by
  obtain _ | ⟨hedge, hp⟩ := hpath
  exact ht.mem_preds_iff.mpr ⟨mem_preorder_of_isPath ht hp, hedge⟩

theorem dominates_of_above {m n : Nat} (hn : t.preorder[n]? = some b) (hm : t.preorder[m]? = some a)
    (h : Above t.tree n m) : Dominates t a b := by
  induction h using Relation.ReflTransGen.head_induction_on generalizing b with
  | refl =>
    obtain rfl : a = b := by simpa [hm] using hn
    exact .refl
  | @head n k hup _ ih =>
    have hlt := (ht.rooted.idom_spec hup).1
    have hlen : n < t.preorder.length := (List.getElem?_eq_some_iff.mp hn).1
    have hk : t.preorder[k]? = some t.preorder[k] := List.getElem?_eq_getElem (Nat.lt_trans hlt hlen)
    exact .head ((ht.idom?_eq_some_iff hn).mpr ⟨k, hup, hk⟩) (ih hk)

theorem dominates_of_onEveryPath (h : r.OnEveryPath a b) (ha : a ∈ t.preorder) (hb : b ∈ t.preorder)
    (hne : b ≠ FlowGraph.graphEntry) : Dominates t a b := by
  obtain ⟨n, hn⟩ := List.mem_iff_getElem?.mp hb
  obtain ⟨m, hm⟩ := List.mem_iff_getElem?.mp ha
  refine dominates_of_above ht hn hm (ht.rooted.above_idoms_of_not_escapes ?_ fun hesc => ?_)
  · rw [Tour.size_predNumbers]
    exact (List.getElem?_eq_some_iff.mp hn).1
  · obtain ⟨path, hpath, hhead, havoid⟩ := exists_isPath ht hesc hn hm
    cases hpath with
    | nil => exact hne hhead.symm
    | cons hedge hpath =>
      obtain rfl : _ = b := hhead
      exact havoid (h _ (.cons hedge hpath))

theorem Dominates.antisymm (hab : Dominates t a b) (hba : Dominates t b a) : a = b := by
  obtain rfl | ⟨d, hd, hda⟩ := hab.cases_head
  · rfl
  · exact absurd (hda.trans hba) (ht.not_dominates_idom hd)

theorem Dominates.pred (hab : Dominates t a b) (hne : a ≠ b) (hp : p ∈ t.preds b) : Dominates t a p := by
  obtain rfl | ⟨d, hd, hda⟩ := hab.cases_head
  · exact absurd rfl hne
  · obtain ⟨n, m, hn, hm, hup⟩ := ht.exists_numbers hd
    obtain ⟨k, hk⟩ := List.mem_iff_getElem?.mp (ht.known b p hp)
    have hmem : k ∈ t.predNumbers.getD n [] := ht.mem_predNumbers_iff.mpr ⟨p, b, hk, hn, hp⟩
    exact (dominates_of_above ht hk hm (ht.rooted.above_idoms_of_pred hup hmem)).trans hda

end Tree

/-! ## Variables without a phi -/

section Variables

variable {r p g₀ g : FlowGraph} {t : Tour} {b c d : BlockId} {is : List InstId} {f f' : Frame} {s : Names} {i : InstId}
  {k : Nat}

theorem Step.getElem?_eq (h : Step r g₀ s g i f f') (hk : k < r.parameterCount + r.localCount)
    (hstore : ∀ (n : Node) (v : InstId), r.nodes[i.index]? = some n → n.inst ≠ .storeLocal k v) :
    f'[k]? = f[k]? := by
  obtain ⟨n, as, rest, h⟩ := h
  have hrest : k < rest.length := Nat.lt_of_lt_of_le hk h.room
  have hf : f[k]? = rest[k]? := by
    rw [h.frame, List.append_assoc, List.getElem?_append_left hrest]
  have hleaves := h.leaves
  unfold Leaves at hleaves
  split at hleaves
  case h_1 slot a hinst =>
    obtain ⟨-, v, -, hv⟩ := hleaves
    have hne : slot ≠ k := by
      rintro rfl
      exact hstore n a h.built hinst
    rw [hv.frame, List.getElem?_append_left (by simpa using hrest), List.getElem?_set_ne hne, hf]
  case h_2 slot hinst =>
    obtain ⟨-, v, -, -, hv⟩ := hleaves
    rw [hv.frame, List.getElem?_append_left hrest, hf]
  case h_3 => rw [hleaves, List.getElem?_append_left hrest, hf]

theorem Runs.getElem?_eq (h : Runs r g₀ s g is f f') (hk : k < r.parameterCount + r.localCount)
    (hstore : ∀ i ∈ is, ∀ (n : Node) (v : InstId), r.nodes[i.index]? = some n → n.inst ≠ .storeLocal k v) :
    f'[k]? = f[k]? := by
  induction h with
  | nil f => rfl
  | cons hstep _ ih =>
    rw [List.forall_mem_cons] at hstore
    rw [ih hstore.2, hstep.getElem?_eq hk hstore.1]

variable {init : Frame} {out : BlockId → Frame} (h : AllRenamed r t g₀ init s g out)

include h

theorem AllRenamed.room (hb : b ∈ t.preorder) (hne : b ≠ FlowGraph.graphEntry) :
    r.parameterCount + r.localCount ≤ (into t init out b).length := by
  unfold into
  split
  · exact h.starts.length.symm.le
  case isFalse hnormal =>
    obtain ⟨d, hd⟩ := h.base.touring.exists_idom? hb hne
    rw [hd]
    exact (h.block d (h.base.touring.mem_of_idom? hd).2
      (h.base.touring.idom?_ne_graphEntry h.base.catchEntries hnormal hd)).sized.room

theorem AllRenamed.getElem?_out (hb : b ∈ t.preorder) (hne : b ≠ FlowGraph.graphEntry)
    (hk : k < r.parameterCount + r.localCount) (hphi : ¬ PhiFor g₀ b k)
    (hstore : ∀ n, t.preorder[n]? = some b → ¬ Stores t n k) : (out b)[k]? = (into t init out b)[k]? := by
  have hstores : ∀ i ∈ r.insts b, ∀ (n : Node) (v : InstId), r.nodes[i.index]? = some n → n.inst ≠ .storeLocal k v := by
    intro i hi n v hn hinst
    obtain ⟨m, hm⟩ := List.mem_iff_getElem?.mp hb
    obtain ⟨slots, hslots, hcovers⟩ := h.base.touring.assigned m b hm
    refine hstore m hm ?_
    have hcontains := (hcovers (k % 0x100000000)).mpr ⟨i, hi, n, k, v, hn, hinst, rfl⟩
    simpa [Stores, hslots] using hcontains
  rw [(h.block b hb hne).runs.getElem?_eq hk hstores]
  obtain ⟨phi, hmem, hslot, -⟩ | ⟨-, hsame⟩ :=
    @getElem?_enter g₀ _ (phisOf g₀ b) k (Nat.lt_of_lt_of_le hk (h.room hb hne))
  · exact absurd ⟨phi, hmem, hslot⟩ hphi
  · exact hsame

omit h in
theorem into_of_idom (hd : t.idom? b = some d) (hnormal : b ≠ FlowGraph.normalEntry) : into t init out b = out d := by
  rw [into, if_neg hnormal, hd, Option.map_some, Option.getD_some]

/-- Between a predecessor of a block without a phi and the dominator of the block, nothing stores to the variable. -/
theorem AllRenamed.getElem?_pred (hp : PhisPlaced r t p) (hext : Extends p g₀)
    (hk : k < r.parameterCount + r.localCount) (hphi : ¬ PhiFor g₀ b k) (hpred : c ∈ t.preds b)
    (hc : c ≠ FlowGraph.graphEntry) : (out c)[k]? = (into t init out b)[k]? := by
  have ht := h.base.touring
  obtain ⟨hcmem, hnext⟩ := ht.mem_preds_iff.mp hpred
  have hb : b ∈ t.preorder := ht.mem_of_edge hcmem hnext
  have hbne : b ≠ FlowGraph.graphEntry := (h.base.raw.handle_of_mem_next h.base.catchEntries hnext).2
  obtain ⟨d, hd⟩ := ht.exists_idom? hb hbne
  obtain ⟨n, m, hn, hm, hup⟩ := ht.exists_numbers hd
  obtain ⟨q, hq⟩ := List.mem_iff_getElem?.mp hcmem
  have hmem : q ∈ t.predNumbers.getD n [] := ht.mem_predNumbers_iff.mpr ⟨c, b, hq, hn, hpred⟩
  have hsize : n < t.predNumbers.size := by
    rw [Tour.size_predNumbers]
    exact (List.getElem?_eq_some_iff.mp hn).1
  -- The entry of the method is reached from the graph entry as well.
  have hentry : b = FlowGraph.normalEntry → 1 < (t.predNumbers.getD n []).length := by
    rintro rfl
    have hzero : 0 ∈ t.predNumbers.getD n [] := by
      refine ht.mem_predNumbers_iff.mpr ⟨_, _, ht.entry, hn, ht.mem_preds_iff.mpr ⟨List.mem_of_getElem? ht.entry, ?_⟩⟩
      rw [Raw.next_graphEntry h.base.catchEntries]
      exact List.mem_singleton_self _
    have hne : q ≠ 0 := by
      rintro rfl
      rw [ht.entry, Option.some_inj] at hq
      exact hc hq.symm
    by_contra hle
    match hlist : t.predNumbers.getD n [] with
    | [] => simp [hlist] at hmem
    | [x] =>
      rw [hlist, List.mem_singleton] at hmem hzero
      exact hne (hmem.trans hzero.symm)
    | x :: y :: rest => simp [hlist] at hle
  by_cases hmeet : 1 < (t.predNumbers.getD n []).length
  case neg =>
    have hone : t.predNumbers.getD n [] = [q] := by
      match hlist : t.predNumbers.getD n [] with
      | [] => simp [hlist] at hmem
      | [x] =>
        rw [hlist, List.mem_singleton] at hmem
        rw [hmem]
      | x :: y :: rest => simp [hlist] at hmeet
    obtain rfl : m = q := ht.rooted.idom_eq_of_single_pred hup hone
    obtain rfl : c = d := by simpa [hq] using hm
    rw [into_of_idom hd fun heq => hmeet (hentry heq)]
  case pos =>
    -- Up the tree from the predecessor, as far as `b` is in the frontier.
    have hclimb : ∀ x (e : BlockId), t.preorder[x]? = some e → Above t.tree q x → m < x →
        (out e)[k]? = (into t init out b)[k]? := by
      intro x
      induction x using Nat.strong_induction_on with
      | _ x ih =>
        intro e he habove hlt
        have hene : e ≠ FlowGraph.graphEntry := by
          rintro rfl
          obtain rfl := ht.getElem?_inj he ht.entry
          exact absurd hlt (Nat.not_lt_zero m)
        have hfrontier : n ∈ (frontiers t.predNumbers t.tree).getD x [] :=
          (mem_frontiers_iff ht.rooted.falling_idoms ht.rooted.bounded hsize).mpr
            ⟨hmeet, q, hmem, habove, fun z hz _ => Up.unique hup hz ▸ hlt⟩
        have hnone : ¬ (Stores t x k ∨ PhiFor p e k) := fun hsource =>
          hphi ((hext.phiFor_iff hp.base).mpr (hp.meets k hk n x e b he hn hsource hfrontier))
        rw [not_or] at hnone
        have hemem : e ∈ t.preorder := List.mem_of_getElem? he
        rw [h.getElem?_out hemem hene hk (fun hphi' => hnone.2 ((hext.phiFor_iff hp.base).mp hphi')) fun y hy => by
          rw [ht.getElem?_inj hy he]
          exact hnone.1]
        obtain ⟨e', he'⟩ := ht.exists_idom? hemem hene
        obtain ⟨y, hy, hye⟩ := (ht.idom?_eq_some_iff he).mp he'
        have hyx : y < x := (ht.rooted.idom_spec hy).1
        have hmy : Above t.tree y m := by
          have hqm := ht.rooted.above_idoms_of_pred hup hmem
          obtain hxm | hmx := Above.total habove hqm
          · obtain rfl | ⟨z, hz, hzm⟩ := hxm.cases_head
            · exact absurd hlt (Nat.lt_irrefl _)
            · obtain rfl := Up.unique hy hz
              exact hzm
          · exact absurd (ht.rooted.falling_idoms.le hmx) (Nat.not_le.mpr hlt)
        have hle : m ≤ y := ht.rooted.falling_idoms.le hmy
        by_cases hnormal : e = FlowGraph.normalEntry
        · -- The climb ends at the entry, so the tree has `b` right below the graph entry.
          subst hnormal
          have hzero : y = 0 := by
            rw [ht.idom?_normalEntry h.base.catchEntries, Option.some_inj] at he'
            exact ht.getElem?_inj hye (he' ▸ ht.entry)
          obtain rfl : m = 0 := by omega
          have hbnormal : b = FlowGraph.normalEntry := by
            by_contra hb'
            refine ht.idom?_ne_graphEntry h.base.catchEntries hb' hd ?_
            rw [ht.entry, Option.some_inj] at hm
            exact hm.symm
          rw [hbnormal]
        · rw [into_of_idom he' hnormal]
          obtain hlt' | rfl := Nat.lt_or_eq_of_le hle
          · exact ih y hyx e' hye (habove.tail hy) hlt'
          · obtain rfl : d = e' := by simpa [hm] using hye
            rw [into_of_idom hd]
            rintro rfl
            rw [ht.idom?_normalEntry h.base.catchEntries, Option.some_inj] at hd
            exact ht.idom?_ne_graphEntry h.base.catchEntries hnormal he' hd.symm
    have hqm := ht.rooted.above_idoms_of_pred hup hmem
    obtain hlt | rfl := Nat.lt_or_eq_of_le (ht.rooted.falling_idoms.le hqm)
    · exact hclimb q c hq .refl hlt
    · obtain rfl : c = d := by simpa [hq] using hm
      rw [into_of_idom hd]
      rintro rfl
      rw [ht.idom?_normalEntry h.base.catchEntries, Option.some_inj] at hd
      exact hc hd.symm

end Variables

end Ssa

end Midend
