import Midend.Flow.Loops
import Midend.Proofs.Flow.Current

/-! # What loops are computed

The loop of a header holds the header and every block from which a back edge can be reached without passing it. Where
control comes to the header from one other block only, that block is the only way into the loop.
-/

namespace Midend

open Midend.Flow FlowGraph Relation

theorem mem_of_filterMapM {α β : Type} {f : α → Except Fault (Option β)} {xs : List α} {ys : List β}
    (h : xs.filterMapM f = .ok ys) {y : β} : y ∈ ys ↔ ∃ x ∈ xs, f x = .ok (some y) := by
  induction xs generalizing ys with
  | nil =>
    rw [List.filterMapM_nil, pure_eq_ok] at h
    simp [← h]
  | cons x xs ih =>
    rw [List.filterMapM_cons] at h
    obtain ⟨o, ho, h⟩ := bind_eq_ok.mp h
    cases o with
    | none => simp [ih h, ho]
    | some z =>
      obtain ⟨zs, hzs, h⟩ := bind_eq_ok.mp h
      rw [pure_eq_ok] at h
      subst h
      simp [ih hzs, ho, eq_comm]

/-- What holds at the start of a walk that picks some items and survives each item holds at the end, of all items and
those that were kept. -/
theorem Leads.filterM {α : Type} {fault : Prop} {g : FlowGraph} {xs : List α} {f : α → Edit Bool}
    (inv : List α → List α → FlowGraph → Prop) (hstart : inv [] [] g)
    (hstep : ∀ done kept a rest g, xs = done ++ a :: rest → inv done kept g →
      Leads fault g (f a) fun keep g' => inv (done ++ [a]) (if keep then kept ++ [a] else kept) g') :
    Leads fault g (xs.filterM f) fun ys g' => inv xs ys g' := by
  suffices haux : ∀ (rest done acc : List α) (g : FlowGraph), xs = done ++ rest → inv done acc.reverse g →
      Leads fault g (List.filterAuxM f rest acc) fun ys g' => inv xs ys.reverse g' by
    rw [List.filterM, Leads.bind_iff]
    exact haux xs [] [] g rfl hstart
  intro rest
  induction rest with
  | nil =>
    intro done acc g hxs hinv
    rw [List.append_nil] at hxs
    subst hxs
    exact hinv
  | cons a rest ih =>
    intro done acc g hxs hinv
    rw [List.filterAuxM, Leads.bind_iff]
    refine (hstep done acc.reverse a rest g hxs hinv).mono fun keep g' hinv' => ?_
    refine ih (done ++ [a]) _ g' (by rw [hxs, List.append_assoc, List.singleton_append]) ?_
    cases keep with
    | true => simpa using hinv'
    | false => simpa using hinv'

/-! ## Loops of blocks -/

namespace FlowGraph

variable {g : FlowGraph} {a b c header p : BlockId} {blocks path front back : List BlockId}

theorem Dominates.of_edge (hab : g.Dominates a b) (hne : a ≠ b) (hedge : g.Edge c b) : g.Dominates a c := by
  rintro path hpath rfl
  have hmem := hab (b :: path) (.cons hedge hpath) rfl
  rw [List.cons_append] at hmem
  exact (List.mem_cons.mp hmem).resolve_left hne

/-- The blocks of a loop. The header is the only one of them that an edge from elsewhere leads to. -/
structure IsLoop (g : FlowGraph) (header : BlockId) (blocks : List BlockId) : Prop where
  mem : header ∈ blocks
  reachable : ∀ b ∈ blocks, g.Reachable b
  dominated : ∀ b ∈ blocks, g.Dominates header b
  closed : ∀ b ∈ blocks, b ≠ header → ∀ c, g.Reachable c → g.Edge c b → c ∈ blocks
  sources : ∀ c, g.Reachable c → g.Edge c header → g.Dominates header c → c ∈ blocks

/-- Control may pass from `b` to `c` without coming to the header. -/
def ReachesAround (g : FlowGraph) (header b c : BlockId) : Prop :=
  b ≠ header ∧ ReflTransGen (fun x y => g.Edge x y ∧ y ≠ header) b c

/-- The natural loop of a header: the header, and the blocks from which a back edge to it can be reached around it. -/
def InLoop (g : FlowGraph) (header b : BlockId) : Prop :=
  b = header ∨ g.Reachable b ∧ ∃ s, g.Edge s header ∧ g.Dominates header s ∧ g.ReachesAround header b s

namespace ReachesAround

theorem head (h : g.ReachesAround header b c) (hedge : g.Edge a b) (hne : a ≠ header) : g.ReachesAround header a c :=
  ⟨hne, h.2.head ⟨hedge, h.1⟩⟩

theorem reachable (h : g.ReachesAround header b c) (hb : g.Reachable b) : g.Reachable c :=
  hb.trans (ReflTransGen.mono (fun _ _ hxy => hxy.1) _ _ h.2)

theorem dominates (h : g.ReachesAround header b c) (hdom : g.Dominates header c) : g.Dominates header b := by
  obtain ⟨-, hpath⟩ := h
  induction hpath using ReflTransGen.head_induction_on with
  | refl => exact hdom
  | head hxy _ ih => exact ih.of_edge (Ne.symm hxy.2) hxy.1

end ReachesAround

namespace InLoop

theorem reachable (h : g.InLoop header b) (hh : g.Reachable header) : g.Reachable b := by
  obtain rfl | ⟨hb, -⟩ := h
  · exact hh
  · exact hb

theorem dominated (h : g.InLoop header b) : g.Dominates header b := by
  obtain rfl | ⟨-, s, -, hdom, haround⟩ := h
  · exact .refl _
  · exact haround.dominates hdom

theorem of_source (hc : g.Reachable c) (hedge : g.Edge c header) (hdom : g.Dominates header c) : g.InLoop header c := by
  by_cases hne : c = header
  · exact .inl hne
  · exact .inr ⟨hc, c, hedge, hdom, hne, .refl⟩

theorem of_edge (h : g.InLoop header b) (hne : b ≠ header) (hc : g.Reachable c) (hedge : g.Edge c b) :
    g.InLoop header c := by
  obtain ⟨-, s, hs, hdom, haround⟩ := h.resolve_left hne
  by_cases hch : c = header
  · exact .inl hch
  · exact .inr ⟨hc, s, hs, hdom, haround.head hedge hch⟩

end InLoop

theorem isLoop_of_inLoop (hh : g.Reachable header) (hmem : ∀ b, b ∈ blocks ↔ g.InLoop header b) :
    g.IsLoop header blocks where
  mem := (hmem header).mpr (.inl rfl)
  reachable b hb := ((hmem b).mp hb).reachable hh
  dominated b hb := ((hmem b).mp hb).dominated
  closed b hb hne c hc hedge := (hmem c).mpr (((hmem b).mp hb).of_edge hne hc hedge)
  sources c hc hedge hdom := (hmem c).mpr (.of_source hc hedge hdom)

/-- Control comes to the header by way of `p`, which leads nowhere else. -/
structure Enters (g : FlowGraph) (p header : BlockId) : Prop where
  reachable : g.Reachable header
  next : g.next p = [header]
  ne : p ≠ header
  dominates : g.Dominates p header

theorem Enters.dominates_source (hp : g.Enters p header) (hedge : g.Edge c header) (hne : c ≠ p) :
    g.Dominates header c := by
  by_contra hnot
  obtain ⟨path, hpath, rfl, havoid⟩ := exists_path_avoiding hnot
  have hmem := hp.dominates _ (.cons hedge hpath) rfl
  rw [List.cons_append] at hmem
  obtain ⟨front, back, rfl, -, hhead⟩ := hpath.suffix ((List.mem_cons.mp hmem).resolve_left hp.ne)
  -- What comes behind `p` can only be the header.
  obtain rfl | ⟨front, x, rfl⟩ := List.eq_nil_or_concat' front
  · exact hne hhead
  · rw [List.append_assoc, List.singleton_append] at hpath
    cases hpath.drop with
    | cons hedge _ =>
      unfold FlowGraph.Edge at hedge
      rw [hhead, hp.next, List.mem_singleton] at hedge
      simp [hedge] at havoid

namespace IsLoop

variable (hl : g.IsLoop header blocks) (hp : g.Enters p header)

include hl hp

theorem dominates (hb : b ∈ blocks) : g.Dominates p b := hp.dominates.trans (hl.dominated b hb)

theorem not_mem : p ∉ blocks := fun hmem =>
  hp.ne (hp.dominates.antisymm (hl.dominated p hmem) hp.reachable)

theorem mem_of_edge (hb : b ∈ blocks) (hc : g.Reachable c) (hedge : g.Edge c b) (hne : c ≠ p) : c ∈ blocks := by
  by_cases heq : b = header
  · subst heq
    exact hl.sources c hc hedge (hp.dominates_source hedge hne)
  · exact hl.closed b hb heq c hc hedge

theorem mem_of_behind (hpath : g.IsPath (front ++ c :: back)) (hmem : p ∉ front ++ [c])
    (hhead : (front ++ c :: back).headD graphEntry ∈ blocks) : c ∈ blocks := by
  induction front with
  | nil => exact hhead
  | cons d front ih =>
    cases hpath with
    | cons hedge hpath =>
      simp only [List.cons_append, List.mem_cons, not_or] at hmem
      refine ih hpath hmem.2 (hl.mem_of_edge hp hhead hpath.reachable hedge ?_)
      rintro rfl
      cases front <;> simp at hmem

end IsLoop

/-! ## Loops of numbers -/

theorem mem_loopBody {preds : Array (List Nat)} {header n : Nat} {sources : List Nat}
    (hbounded : ∀ x < preds.size, ∀ y ∈ preds.getD x [], y < preds.size) (hsources : ∀ s ∈ sources, s < preds.size) :
    n ∈ loopBody preds header sources ↔ n < preds.size ∧
      (n = header ∨ ∃ s ∈ sources, s ≠ header ∧ ReflTransGen (Neighbour (predsAvoiding preds header)) s n) := by
  have hnext (x : Nat) (hx : x < preds.size) (y : Nat) (hy : y ∈ predsAvoiding preds header x) : y < preds.size :=
    hbounded x hx y (mem_predsAvoiding.mp hy).1
  unfold loopBody
  simp only [List.mem_filter, List.mem_range, decide_eq_true_eq, Bool.or_eq_true, List.any_eq_true, List.mem_map,
    bne_iff_ne, and_assoc]
  refine and_congr_right fun _ => or_congr_right ?_
  constructor
  · rintro ⟨_, ⟨s, hs, hne, rfl⟩, hn⟩
    exact ⟨s, hs, hne, (mem_reachable_iff hnext (hsources s hs)).mp hn⟩
  · rintro ⟨s, hs, hne, hn⟩
    exact ⟨_, ⟨s, hs, hne, rfl⟩, (mem_reachable_iff hnext (hsources s hs)).mpr hn⟩

theorem size_of_predNumbers {preds : Array (List Nat)} (hpreds : predNumbers g = .ok preds) :
    preds.size = g.preorder.length := by
  obtain ⟨rows, hrows, hpure⟩ := bind_eq_ok.mp hpreds
  rw [pure_eq_ok] at hpure
  subst hpure
  exact (mapM_eq_ok.mp hrows).length_eq.symm

namespace Current

theorem mem_preds_iff (hg : g.Current) (hb : g.Reachable b) {k : Block} (hk : g.blocks[b.index]? = some k) :
    p ∈ k.preds ↔ g.Reachable p ∧ g.Edge p b := by
  obtain ⟨t, ht, -, hrecords⟩ := hg.exists_tour
  obtain ⟨k', hk', hpreds, -⟩ := hrecords b k hk
  rw [hpreds, ← Tour.preds_eq hk' (ht.mem_preorder_iff_reachable.mpr hb), ht.mem_preds_iff,
    ht.mem_preorder_iff_reachable]
  rfl

theorem number_unique (hg : g.Current) {m n : Nat} (hm : g.preorder[m]? = some b) (hn : g.preorder[n]? = some b) :
    m = n := by
  have hb : g.Reachable b := hg.mem_preorder_iff.mp (List.mem_of_getElem? hm)
  obtain ⟨k, hk⟩ := hg.exactDominators.exists_block hb
  exact Option.some_inj.mp (((hg.number_iff hk).mpr hm).symm.trans ((hg.number_iff hk).mpr hn))

theorem mem_predNumbers (hg : g.Current) {preds : Array (List Nat)} (hpreds : predNumbers g = .ok preds) {m n : Nat} :
    m ∈ preds.getD n [] ↔ ∃ p b, g.preorder[m]? = some p ∧ g.preorder[n]? = some b ∧ g.Edge p b := by
  obtain ⟨rows, hrows, hpure⟩ := bind_eq_ok.mp hpreds
  rw [pure_eq_ok] at hpure
  subst hpure
  have hall := mapM_eq_ok.mp hrows
  rw [Array.getD_eq_getD_getElem?, List.getElem?_toArray]
  by_cases hlt : n < g.preorder.length
  case neg =>
    have hle : g.preorder.length ≤ n := Nat.not_lt.mp hlt
    simp [List.getElem?_eq_none hle, List.getElem?_eq_none (hall.length_eq ▸ hle)]
  case pos =>
    have hrow := (List.forall₂_iff_get.mp hall).2 n hlt (hall.length_eq ▸ hlt)
    obtain ⟨ps, hps, hrow⟩ := bind_eq_ok.mp hrow
    obtain ⟨k, hk, rfl⟩ := preds_eq_ok.mp hps
    have hn := List.getElem?_eq_getElem hlt
    have hb : g.Reachable g.preorder[n] := hg.mem_preorder_iff.mp (List.getElem_mem hlt)
    rw [List.getElem?_eq_getElem (hall.length_eq ▸ hlt), Option.getD_some]
    refine (mem_of_filterMapM hrow).trans ?_
    constructor
    · rintro ⟨p, hp, hnumber⟩
      obtain ⟨l, hl, hnumber⟩ := bind_eq_ok.mp hnumber
      rw [pure_eq_ok] at hnumber
      exact ⟨p, _, (hg.number_iff (block_eq_ok.mp hl)).mp hnumber, hn, ((hg.mem_preds_iff hb hk).mp hp).2⟩
    · rintro ⟨p, b, hm, hn', hedge⟩
      obtain rfl := Option.some_inj.mp (hn.symm.trans hn')
      have hp := hg.mem_preorder_iff.mp (List.mem_of_getElem? hm)
      obtain ⟨l, hl⟩ := hg.exactDominators.exists_block hp
      refine ⟨p, (hg.mem_preds_iff hb hk).mpr ⟨hp, hedge⟩, bind_eq_ok.mpr ⟨l, block_eq_ok.mpr hl, ?_⟩⟩
      rw [pure_eq_ok]
      exact (hg.number_iff hl).mpr hm

theorem mem_sources (hg : g.Current) (hh : g.Reachable header) {edges : List BlockId} {sources : List Nat} {s : Nat}
    (hedges : backEdges g header = .ok edges)
    (hsources : edges.filterMapM (fun p => return (← g.block p).preorderNumber) = .ok sources) :
    s ∈ sources ↔ ∃ c, g.preorder[s]? = some c ∧ g.Edge c header ∧ g.Dominates header c := by
  obtain ⟨ps, hps, hedges⟩ := bind_eq_ok.mp hedges
  obtain ⟨k, hk, rfl⟩ := preds_eq_ok.mp hps
  obtain ⟨-, rfl⟩ := filterM_eq_ok.mp hedges
  rw [mem_of_filterMapM hsources]
  refine exists_congr fun c => ?_
  rw [List.mem_filter, hg.mem_preds_iff hh hk, decide_eq_true_eq, toOption_eq_some_iff]
  constructor
  · rintro ⟨⟨⟨hc, hedge⟩, hdom⟩, hs⟩
    obtain ⟨l, hl, hs⟩ := bind_eq_ok.mp hs
    obtain ⟨r, hr, hiff⟩ := hg.exactDominators.dominates header c hc
    obtain rfl := Except.ok.inj (hdom.symm.trans hr)
    exact ⟨(hg.number_iff (block_eq_ok.mp hl)).mp (pure_eq_ok.mp hs), hedge, hiff.mp rfl⟩
  · rintro ⟨hs, hedge, hdom⟩
    have hc := hg.mem_preorder_iff.mp (List.mem_of_getElem? hs)
    obtain ⟨l, hl⟩ := hg.exactDominators.exists_block hc
    obtain ⟨r, hr, hiff⟩ := hg.exactDominators.dominates header c hc
    obtain rfl := hiff.mpr hdom
    exact ⟨⟨⟨hc, hedge⟩, hr⟩, bind_eq_ok.mpr ⟨l, block_eq_ok.mpr hl, pure_eq_ok.mpr ((hg.number_iff hl).mpr hs)⟩⟩

theorem reachesAround_iff (hg : g.Current) {preds : Array (List Nat)} (hpreds : predNumbers g = .ok preds) {n s m : Nat}
    (hn : g.preorder[n]? = some header) (hs : g.preorder[s]? = some c) (hm : g.preorder[m]? = some b) :
    g.ReachesAround header b c ↔ s ≠ n ∧ ReflTransGen (Neighbour (predsAvoiding preds n)) s m := by
  have hne {l : Nat} {x : BlockId} (hl : g.preorder[l]? = some x) : x ≠ header ↔ l ≠ n := by
    refine not_congr ⟨?_, ?_⟩
    · rintro rfl
      exact hg.number_unique hl hn
    · rintro rfl
      exact Option.some_inj.mp (hl.symm.trans hn)
  constructor
  · rintro ⟨hb, hpath⟩
    induction hpath using ReflTransGen.head_induction_on generalizing m with
    | refl =>
      obtain rfl := hg.number_unique hm hs
      exact ⟨(hne hm).mp hb, .refl⟩
    | @head x y hxy _ ih =>
      have hy : g.Reachable y := (hg.mem_preorder_iff.mp (List.mem_of_getElem? hm)).tail hxy.1
      obtain ⟨l, hl⟩ := List.mem_iff_getElem?.mp (hg.mem_preorder_iff.mpr hy)
      obtain ⟨hsn, hpath⟩ := ih hl hxy.2
      have hpred : m ∈ preds.getD l [] := (hg.mem_predNumbers hpreds).mpr ⟨x, y, hm, hl, hxy.1⟩
      exact ⟨hsn, hpath.tail (mem_predsAvoiding.mpr ⟨hpred, (hne hm).mp hb⟩)⟩
  · rintro ⟨hsn, hpath⟩
    induction hpath generalizing b with
    | refl =>
      obtain rfl := Option.some_inj.mp (hm.symm.trans hs)
      exact ⟨(hne hm).mpr hsn, .refl⟩
    | @tail x y _ hxy ih =>
      obtain ⟨hpred, hyn⟩ := mem_predsAvoiding.mp hxy
      obtain ⟨b', e, hb', he, hedge⟩ := (hg.mem_predNumbers hpreds).mp hpred
      obtain rfl := Option.some_inj.mp (hm.symm.trans hb')
      exact (ih he).head hedge ((hne hm).mpr hyn)

theorem mem_loop_iff (hg : g.Current) {preds : Array (List Nat)} (hpreds : predNumbers g = .ok preds)
    (hh : g.Reachable header) {ns : List Nat} (hloop : loopAt? g preds header = .ok (some ns)) {m : Nat} :
    m ∈ ns ↔ ∃ b, g.preorder[m]? = some b ∧ g.InLoop header b := by
  unfold loopAt? at hloop
  obtain ⟨edges, hedges, hloop⟩ := bind_eq_ok.mp hloop
  obtain ⟨sources, hsources, hloop⟩ := bind_eq_ok.mp hloop
  obtain ⟨k, hk, hloop⟩ := bind_eq_ok.mp hloop
  rw [block_eq_ok] at hk
  split at hloop
  case h_2 => cases hloop
  case h_1 n s rest hn hloop =>
    generalize s :: rest = sources at *
    obtain rfl := Option.some_inj.mp (Except.ok.inj hloop)
    have hn := (hg.number_iff hk).mp hn
    have hsource (s : Nat) := hg.mem_sources hh hedges hsources (s := s)
    have hlt {m : Nat} {b : BlockId} (hm : g.preorder[m]? = some b) : m < preds.size := by
      rw [size_of_predNumbers hpreds]
      exact (List.getElem?_eq_some_iff.mp hm).1
    rw [mem_loopBody]
    case hbounded =>
      intro x _ y hy
      obtain ⟨p, -, hp, -⟩ := (hg.mem_predNumbers hpreds).mp hy
      exact hlt hp
    case hsources =>
      intro s hs
      obtain ⟨c, hc, -⟩ := (hsource s).mp hs
      exact hlt hc
    constructor
    · rintro ⟨hm, heq | ⟨s, hs, hpath⟩⟩
      · exact ⟨header, heq ▸ hn, .inl rfl⟩
      · obtain ⟨c, hc, hedge, hdom⟩ := (hsource s).mp hs
        have hm := List.getElem?_eq_getElem (size_of_predNumbers hpreds ▸ hm)
        refine ⟨_, hm, .inr ⟨hg.mem_preorder_iff.mp (List.mem_of_getElem? hm), c, hedge, hdom, ?_⟩⟩
        exact (hg.reachesAround_iff hpreds hn hc hm).mpr hpath
    · rintro ⟨b, hm, rfl | ⟨hb, c, hedge, hdom, haround⟩⟩
      · exact ⟨hlt hm, .inl (hg.number_unique hm hn)⟩
      · obtain ⟨s, hs⟩ := List.mem_iff_getElem?.mp (hg.mem_preorder_iff.mpr (haround.reachable hb))
        exact ⟨hlt hm, .inr ⟨s, (hsource s).mpr ⟨c, hs, hedge, hdom⟩, (hg.reachesAround_iff hpreds hn hs hm).mp
          haround⟩⟩

theorem isLoop (hg : g.Current) {preds : Array (List Nat)} (hpreds : predNumbers g = .ok preds)
    (hh : g.Reachable header)
    {ns : List Nat} (hloop : loopAt? g preds header = .ok (some ns)) (hblocks : ns.mapM (blockAt g) = .ok blocks) :
    g.IsLoop header blocks := by
  have hall := mapM_eq_ok.mp hblocks
  refine isLoop_of_inLoop hh fun b => ?_
  constructor
  · intro hb
    obtain ⟨m, hm, hat⟩ := forall₂_mem_right hall hb
    obtain ⟨c, hc, hin⟩ := (hg.mem_loop_iff hpreds hh hloop).mp hm
    obtain rfl := Option.some_inj.mp (hc.symm.trans (orFault_eq_ok.mp hat))
    exact hin
  · intro hin
    obtain ⟨m, hm⟩ := List.mem_iff_getElem?.mp (hg.mem_preorder_iff.mpr (hin.reachable hh))
    obtain ⟨c, hc, hat⟩ := forall₂_mem_left hall ((hg.mem_loop_iff hpreds hh hloop).mpr ⟨b, hm, hin⟩)
    obtain rfl := Option.some_inj.mp (hm.symm.trans (orFault_eq_ok.mp hat))
    exact hc

theorem of_preHeader (hg : g.Current) (hh : g.Reachable header) (hpre : g.preHeader? header = .ok (some p)) :
    g.Reachable p ∧ g.Edge p header ∧ p ≠ header ∧ g.Dominates p header := by
  obtain ⟨k, hk, hpre⟩ := bind_eq_ok.mp hpre
  rw [block_eq_ok] at hk
  obtain ⟨d, hd, hpre⟩ := Option.bind_eq_some_iff.mp (Except.ok.inj hpre)
  split at hpre
  case isFalse => cases hpre
  case isTrue hmem =>
    obtain rfl := Option.some_inj.mp hpre
    have hentry : header ≠ graphEntry := by
      rintro rfl
      obtain ⟨k', hk', hnone⟩ := hg.exactDominators.entry
      obtain rfl := Option.some_inj.mp (hk.symm.trans hk')
      rw [hnone] at hd
      cases hd
    obtain ⟨k', e, hk', he, hne, hdom, -⟩ := hg.exactDominators.immediate header hh hentry
    obtain rfl := Option.some_inj.mp (hk.symm.trans hk')
    obtain rfl := Option.some_inj.mp (hd.symm.trans he)
    obtain ⟨hreach, hedge⟩ := (hg.mem_preds_iff hh hk).mp hmem
    exact ⟨hreach, hedge, hne, hdom⟩

/-! ## The computation -/

theorem postorder_perm (hg : g.Current) : g.postorder.Perm g.preorder := by
  obtain ⟨frontier, g', hrun, hsame⟩ := hg
  obtain ⟨t, ht, -, rfl⟩ := (leads_dominators (.inl trivial)).post_of_ok hrun
  have hpreorder : t.preorder = g.preorder := (Prod.mk.inj hsame).1
  have hpostorder : t.postorder = g.postorder := (Prod.mk.inj (Prod.mk.inj hsame).2).1
  rw [← hpreorder, ← hpostorder]
  exact ht.opened

theorem preorder_nodup (hg : g.Current) : g.preorder.Nodup := by
  obtain ⟨t, ht, hpreorder, -⟩ := hg.exists_tour
  exact hpreorder ▸ ht.nodup

theorem mem_postorder_iff (hg : g.Current) : b ∈ g.postorder ↔ g.Reachable b :=
  hg.postorder_perm.mem_iff.trans hg.mem_preorder_iff

theorem filterMapM_number (hg : g.Current) (ps : List BlockId) (hps : ∀ p ∈ ps, g.Reachable p) :
    ∃ ns, ps.filterMapM (fun p => return (← g.block p).preorderNumber) = .ok ns := by
  refine ⟨_, filterMapM_eq_ok (h := fun p => (g.blocks[p.index]?).bind Block.preorderNumber) fun p hp => ?_⟩
  obtain ⟨k, hk⟩ := hg.exactDominators.exists_block (hps p hp)
  rw [block_eq_ok.mpr hk, hk]
  rfl

theorem exists_predNumbers (hg : g.Current) : ∃ preds, predNumbers g = .ok preds := by
  have hrow : ∀ b ∈ g.preorder, ∃ row, (do
      (← g.preds b).filterMapM fun p => return (← g.block p).preorderNumber : Except Fault (List Nat)) = .ok row := by
    intro b hb
    have hreach := hg.mem_preorder_iff.mp hb
    obtain ⟨k, hk⟩ := hg.exactDominators.exists_block hreach
    obtain ⟨ns, hns⟩ := hg.filterMapM_number k.preds fun p hp => ((hg.mem_preds_iff hreach hk).mp hp).1
    exact ⟨ns, bind_eq_ok.mpr ⟨k.preds, preds_eq_ok.mpr ⟨k, hk, rfl⟩, hns⟩⟩
  choose! row hrow using hrow
  refine ⟨(g.preorder.map row).toArray, bind_eq_ok.mpr ⟨_, mapM_eq_ok.mpr ?_, rfl⟩⟩
  exact List.forall₂_map_right_iff.mpr (List.forall₂_same.mpr hrow)

theorem exists_loopAt? (hg : g.Current) (preds : Array (List Nat)) (hh : g.Reachable header) :
    ∃ loop, loopAt? g preds header = .ok loop ∧
      (loop.isSome = true ↔ ∃ p, g.Reachable p ∧ g.Edge p header ∧ g.Dominates header p) := by
  obtain ⟨k, hk⟩ := hg.exactDominators.exists_block hh
  have hdom (p : BlockId) (hp : p ∈ k.preds) := hg.exactDominators.dominates header p ((hg.mem_preds_iff hh hk).mp hp).1
  obtain ⟨edges, hedges⟩ : ∃ edges, backEdges g header = .ok edges := by
    refine ⟨_, bind_eq_ok.mpr ⟨k.preds, preds_eq_ok.mpr ⟨k, hk, rfl⟩, filterM_eq_ok.mpr ⟨fun p hp => ?_, rfl⟩⟩⟩
    obtain ⟨r, hr, -⟩ := hdom p hp
    exact ⟨r, hr⟩
  obtain ⟨sources, hsources⟩ := hg.filterMapM_number edges fun p hp => by
    obtain ⟨ps, hps, hfilter⟩ := bind_eq_ok.mp hedges
    obtain ⟨k', hk', rfl⟩ := preds_eq_ok.mp hps
    obtain ⟨-, rfl⟩ := filterM_eq_ok.mp hfilter
    exact ((hg.mem_preds_iff hh hk').mp (List.mem_filter.mp hp).1).1
  obtain ⟨n, hn⟩ := List.mem_iff_getElem?.mp (hg.mem_preorder_iff.mpr hh)
  have hnumber : k.preorderNumber = some n := (hg.number_iff hk).mpr hn
  have hsome : sources ≠ [] ↔ ∃ p, g.Reachable p ∧ g.Edge p header ∧ g.Dominates header p := by
    constructor
    · intro hne
      obtain ⟨s, hs⟩ := List.exists_mem_of_ne_nil sources hne
      obtain ⟨p, hp, hedge, hdom⟩ := (hg.mem_sources hh hedges hsources).mp hs
      exact ⟨p, hg.mem_preorder_iff.mp (List.mem_of_getElem? hp), hedge, hdom⟩
    · rintro ⟨p, hp, hedge, hdom⟩
      obtain ⟨s, hs⟩ := List.mem_iff_getElem?.mp (hg.mem_preorder_iff.mpr hp)
      exact List.ne_nil_of_mem ((hg.mem_sources hh hedges hsources).mpr ⟨p, hs, hedge, hdom⟩)
  refine ⟨if sources = [] then none else some (loopBody preds n sources), ?_, ?_⟩
  · refine bind_eq_ok.mpr ⟨edges, hedges,
      bind_eq_ok.mpr ⟨sources, hsources, bind_eq_ok.mpr ⟨k, block_eq_ok.mpr hk, ?_⟩⟩⟩
    rw [hnumber]
    cases sources <;> rfl
  · rw [← hsome]
    by_cases hnil : sources = [] <;> simp [hnil]

end Current

def withLoops (g : FlowGraph) (loops : BlockId → Block → Option (List Nat)) : FlowGraph :=
  g.mapBlocks fun b k => { k with loop := loops b k }

theorem withBlock_withLoops {loops : BlockId → Block → Option (List Nat)} {loop : Option (List Nat)} :
    (g.withLoops loops).withBlock b (fun k => { k with loop }) =
      g.withLoops fun c k => if c = b then loop else loops c k := by
  unfold withLoops
  rw [withBlock_eq_mapBlocks, mapBlocks_mapBlocks]
  refine mapBlocks_congr fun c k _ => ?_
  by_cases hc : c = b <;> simp [hc]

/-- Every block that can be reached gets its loop, those that have one are the headers, and nothing else changes. -/
theorem leads_computeLoops_exact (hg : g.Current) : Leads False g computeLoops fun headers g' =>
    ∃ (preds : Array (List Nat)) (loops : BlockId → Option (List Nat)), predNumbers g = .ok preds ∧
      (∀ b, g.Reachable b → loopAt? g preds b = .ok (loops b)) ∧
      headers = g.postorder.filter (fun b => (loops b).isSome) ∧
      g' = g.withLoops fun b k => if b ∈ g.postorder then loops b else k.loop := by
  obtain ⟨preds, hpreds⟩ := hg.exists_predNumbers
  have hloops : ∀ b, g.Reachable b → ∃ loop, loopAt? g preds b = .ok loop := by
    intro b hb
    obtain ⟨loop, hloop, -⟩ := hg.exists_loopAt? preds hb
    exact ⟨loop, hloop⟩
  choose! loops hloops using hloops
  unfold computeLoops
  rw [Leads.bind_iff, Leads.get_iff, Leads.bind_iff, Leads.lift_iff]
  refine Yields.of_ok_or (.inr ⟨preds, hpreds⟩) fun preds' hpreds' => ?_
  obtain rfl := Except.ok.inj (hpreds.symm.trans hpreds')
  refine (Leads.filterM (fun done kept g' => kept = done.filter (fun b => (loops b).isSome) ∧
    g' = g.withLoops fun b k => if b ∈ done then loops b else k.loop) ⟨rfl, ?_⟩ ?_).mono ?_
  · simp [withLoops, mapBlocks_id]
  · rintro done kept b rest _ hrest ⟨rfl, rfl⟩
    have hb : g.Reachable b := hg.mem_postorder_iff.mp (by simp [hrest])
    obtain ⟨k, hk⟩ := hg.exactDominators.exists_block hb
    have hlt : b.index < g.blocks.size := (Array.getElem?_eq_some_iff.mp hk).1
    rw [Leads.bind_iff, Leads.lift_iff, hloops b hb, Yields.ok_iff, Leads.bind_iff, Leads.modifyBlock_iff]
    refine ⟨fun _ => ⟨?_, ?_⟩, fun hle => absurd hlt (Nat.not_lt.mpr (by simpa [withLoops] using hle))⟩
    · rw [List.filter_append]
      cases hloop : loops b <;> simp [hloop]
    · refine withBlock_withLoops.trans (mapBlocks_congr fun c k _ => ?_)
      by_cases hc : c = b <;> simp [hc]
  · rintro headers g' ⟨rfl, rfl⟩
    exact ⟨preds, loops, hpreds, hloops, rfl, rfl⟩

theorem leads_computeLoops (hg : g.Current) : Leads True g computeLoops fun headers g' =>
    headers ⊆ g.postorder ∧ ∃ loops, g' = g.withLoops loops ∧ ∀ header ∈ headers, ∀ k ns blocks, g.Reachable header →
      loops header k = some ns → ns.mapM (blockAt g) = .ok blocks → g.IsLoop header blocks := by
  obtain ⟨⟨headers, g'⟩, hrun, preds, loops, hpreds, hloops, rfl, rfl⟩ := Yields.exists_ok (leads_computeLoops_exact hg)
  unfold Leads
  rw [hrun]
  refine ⟨List.filter_subset_self _, fun b k => if b ∈ g.postorder then loops b else k.loop, rfl, ?_⟩
  intro header hheader k ns blocks hreach hns hblocks
  have hmem : header ∈ g.postorder := List.mem_of_mem_filter hheader
  have hns : loops header = some ns := (if_pos hmem).symm.trans hns
  exact hg.isLoop hpreds hreach ((hloops header hreach).trans (congrArg _ hns)) hblocks

end FlowGraph

end Midend

/-! ## Natural loops are exact

Where the recorded orders and dominators are those that would be found again, exactly the blocks that dominate one of
their predecessors get a loop, and it has exactly the blocks of their natural loop. A pre-header that jumps to its
header is the only way into the loop. The graph entry is an exception: what it leads to are the entries of the method,
whatever instructions it has.
-/

namespace Midend

open Midend.Flow FlowGraph

namespace FlowGraph

variable {g : FlowGraph} {b c header p : BlockId}

def EndsInGoto (g : FlowGraph) (b : BlockId) : Prop :=
  ∃ i n target, g.lastInst b = some i ∧ g.nodes[i.index]? = some n ∧ n.inst = .goto target

/-- A block that ends in a jump leads to one block only, and so does the graph entry of a method with one entry. -/
theorem next_of_endsInGoto (hends : g.EndsInGoto p) (hentry : p = graphEntry → g.catchEntries = [])
    (hedge : g.Edge p header) : g.next p = [header] := by
  obtain ⟨i, n, target, hlast, hn, hgoto⟩ := hends
  have hone : ∃ c, g.next p = [c] := by
    by_cases hp : p = graphEntry
    · exact ⟨normalEntry, hp ▸ Raw.next_graphEntry (hentry hp)⟩
    · exact ⟨target, by rw [Raw.next_of_last hp hlast hn, hgoto]; rfl⟩
  obtain ⟨c, hc⟩ := hone
  obtain rfl : header = c := by simpa [FlowGraph.Edge, hc] using hedge
  exact hc

/-- A block that leads to the header alone and dominates it is the only one outside that leads to the loop. -/
theorem Enters.only_entry (hp : g.Enters p header) :
    (g.Reachable c ∧ g.Edge c header ∧ ¬ g.InLoop header c) ↔ c = p := by
  have hedge : g.Edge p header := by simp [FlowGraph.Edge, hp.next]
  constructor
  · rintro ⟨hc, hedge, hout⟩
    by_contra hne
    exact hout (.of_source hc hedge (hp.dominates_source hedge hne))
  · rintro rfl
    refine ⟨hp.dominates.reachable hp.reachable, hedge, fun hin => ?_⟩
    exact hp.ne (hp.dominates.antisymm hin.dominated hp.reachable)

theorem preHeader?_withLoops {loops : BlockId → Block → Option (List Nat)} :
    (g.withLoops loops).preHeader? b = g.preHeader? b := by
  unfold FlowGraph.preHeader? FlowGraph.block withLoops
  rw [blocks_mapBlocks]
  cases g.blocks[b.index]? <;> rfl

end FlowGraph

/-- The headers that were found, and what `g'` has recorded of their loops, are exact for the paths of `g`. -/
structure ExactLoops (g : FlowGraph) (headers : List BlockId) (g' : FlowGraph) : Prop where
  ordered : headers.Sublist g.postorder
  once : headers.Nodup
  mem_headers : ∀ b, b ∈ headers ↔ g.Reachable b ∧ ∃ p, g.Reachable p ∧ g.Edge p b ∧ g.Dominates b p
  body : ∀ header ∈ headers, ∃ k ns, g'.blocks[header.index]? = some k ∧ k.loop = some ns ∧
    ∀ n, n ∈ ns ↔ ∃ b, g.preorder[n]? = some b ∧ g.InLoop header b
  dominated : ∀ header b, g.InLoop header b → g.Dominates header b
  others : ∀ b, g.Reachable b → b ∉ headers → ∃ k, g'.blocks[b.index]? = some k ∧ k.loop = none
  /-- No other block outside the loop leads to the header. -/
  preHeader : ∀ header ∈ headers, ∀ p, g'.preHeader? header = .ok (some p) → g.EndsInGoto p →
    (p = graphEntry → g.catchEntries = []) → ∀ c, (g.Reachable c ∧ g.Edge c header ∧ ¬ g.InLoop header c) ↔ c = p
  rest : ∃ loops, g' = g.withLoops loops

namespace Flow

variable {g : FlowGraph}

/-- The computation of loops always ends, and what it records is exact. -/
theorem computeLoops_exact (hg : g.Current) :
    ∃ headers g', computeLoops g = .ok (headers, g') ∧ ExactLoops g headers g' := by
  obtain ⟨⟨headers, g'⟩, hrun, preds, loops, hpreds, hloops, rfl, rfl⟩ := Yields.exists_ok (leads_computeLoops_exact hg)
  refine ⟨_, _, hrun, ?_⟩
  have hmem (b : BlockId) :
      b ∈ g.postorder.filter (fun b => (loops b).isSome) ↔ g.Reachable b ∧ (loops b).isSome = true := by
    rw [List.mem_filter, hg.mem_postorder_iff]
  have hblock (b : BlockId) (hb : g.Reachable b) : ∃ k, (g.withLoops fun b k =>
      if b ∈ g.postorder then loops b else k.loop).blocks[b.index]? = some k ∧ k.loop = loops b := by
    obtain ⟨k, hk⟩ := hg.exactDominators.exists_block hb
    refine ⟨{ k with loop := loops b }, ?_, rfl⟩
    simp only [withLoops, blocks_mapBlocks, hk, Option.map_some, if_pos (hg.mem_postorder_iff.mpr hb)]
  constructor
  case ordered => exact List.filter_sublist
  case once => exact (hg.postorder_perm.nodup_iff.mpr hg.preorder_nodup).filter _
  case mem_headers =>
    intro b
    rw [hmem]
    refine and_congr_right fun hb => ?_
    obtain ⟨loop, hloop, hiff⟩ := hg.exists_loopAt? preds hb
    rwa [Except.ok.inj ((hloops b hb).symm.trans hloop)]
  case body =>
    intro header hheader
    obtain ⟨hh, hsome⟩ := (hmem header).mp hheader
    obtain ⟨k, hk, hloop⟩ := hblock header hh
    obtain ⟨ns, hns⟩ := Option.isSome_iff_exists.mp hsome
    exact ⟨k, ns, hk, hloop.trans hns, fun n => hg.mem_loop_iff hpreds hh ((hloops header hh).trans (congrArg _ hns))⟩
  case dominated => exact fun header b => InLoop.dominated
  case others =>
    intro b hb hnot
    obtain ⟨k, hk, hloop⟩ := hblock b hb
    refine ⟨k, hk, hloop.trans (Option.not_isSome_iff_eq_none.mp fun hsome => hnot ((hmem b).mpr ⟨hb, hsome⟩))⟩
  case preHeader =>
    intro header hheader p hpre hends hentry c
    rw [preHeader?_withLoops] at hpre
    have hh := ((hmem header).mp hheader).1
    obtain ⟨-, hedge, hne, hdom⟩ := hg.of_preHeader hh hpre
    exact Enters.only_entry ⟨hh, next_of_endsInGoto hends hentry hedge, hne, hdom⟩
  case rest => exact ⟨_, rfl⟩

/-- The graph that commands lead to, with its dominators, and what the computation of its loops leaves. -/
def looped (commands : List Command) : Option (FlowGraph × List BlockId × FlowGraph) :=
  (do
    let (_, r) ← Build.run (commands.forM Command.run) (FlowGraph.new "f" 1 0)
    let (_, g) ← (discover >>= fun _ => computeDominators) r
    let (headers, g') ← computeLoops g
    return (g, headers, g')).toOption

theorem run_of_looped {commands : List Command} {headers : List BlockId} {g' : FlowGraph}
    (h : looped commands = some (g, headers, g')) : computeLoops g = .ok (headers, g') := by
  obtain ⟨⟨_, r⟩, -, hrest⟩ := bind_eq_ok.mp (toOption_eq_some_iff.mp h)
  obtain ⟨⟨_, g₁⟩, -, hrest'⟩ := bind_eq_ok.mp hrest
  obtain ⟨⟨headers', g''⟩, hrun, heq⟩ := bind_eq_ok.mp hrest'
  obtain ⟨rfl, rfl, rfl⟩ : g₁ = g ∧ headers' = headers ∧ g'' = g' := by simpa [pure, Except.pure] using heq
  exact hrun

/-- A loop that two jumps lead back to the start of, one of them from behind a branch that may leave it. -/
def twoLatches : List Command :=
  [.joinBlock, .targetBlock, .targetBlock, .targetBlock, .targetBlock, .inst (.loadLocal 0), .inst (.goto ⟨2⟩),
    .appendTo ⟨2⟩, .inst (.branch (.strict .eqStrict ⟨0⟩ ⟨0⟩) ⟨3⟩ ⟨4⟩), .appendTo ⟨3⟩, .inst (.goto ⟨2⟩),
    .appendTo ⟨4⟩, .inst (.branch (.strict .eqStrict ⟨0⟩ ⟨0⟩) ⟨5⟩ ⟨6⟩), .appendTo ⟨5⟩, .inst (.goto ⟨2⟩),
    .appendTo ⟨6⟩, .inst (.unary .ret ⟨0⟩)]

/-- The two back edges make one loop, which block 1 is in front of. -/
theorem twoLatches_loop : ∃ g headers g', g.Current ∧ computeLoops g = .ok (headers, g') ∧ headers = [⟨2⟩] ∧
    g'.preHeader? ⟨2⟩ = .ok (some FlowGraph.normalEntry) ∧ ExactLoops g headers g' := by
  have hcompute : (looped twoLatches).map (fun r => (decide r.1.Current, r.2.1, (r.2.2.preHeader? ⟨2⟩).toOption)) =
      some (true, [⟨2⟩], some (some FlowGraph.normalEntry)) := by decide +kernel
  obtain ⟨⟨g, headers, g'⟩, hlooped, hholds⟩ := Option.map_eq_some_iff.mp hcompute
  simp only [Prod.mk.injEq, decide_eq_true_eq, toOption_eq_some_iff] at hholds
  obtain ⟨hcurrent, hheaders, hpre⟩ := hholds
  obtain ⟨headers', g'', hrun, hexact⟩ := computeLoops_exact hcurrent
  obtain ⟨rfl, rfl⟩ := Prod.mk.inj (Except.ok.inj (hrun.symm.trans (run_of_looped hlooped)))
  exact ⟨g, headers', g'', hcurrent, hrun, hheaders, hpre, hexact⟩

/-! ### A jump at the end of the graph entry -/

/-- A method that is also entered at block 2, with a jump in the graph entry, and block 4 that nothing leads to. -/
def caughtLoop : List Command :=
  [.catchEntry, .joinBlock, .targetBlock, .appendTo ⟨0⟩, .inst (.goto ⟨1⟩), .appendTo ⟨1⟩, .inst (.goto ⟨3⟩),
    .appendTo ⟨2⟩, .inst (.goto ⟨1⟩), .appendTo ⟨3⟩, .inst (.goto ⟨1⟩), .appendTo ⟨4⟩, .inst (.goto ⟨3⟩)]

/-- The numbers of the loop of block 1, and what the blocks lead to. -/
def caughtLoopHolds (g : FlowGraph) (headers : List BlockId) (g' : FlowGraph) : Bool :=
  decide g.Current && headers == [⟨1⟩] && g.preorder == [⟨0⟩, ⟨2⟩, ⟨1⟩, ⟨3⟩] &&
    (g'.blocks[1]?).any (·.loop == some [2, 3]) && (g'.preHeader? ⟨1⟩).toOption == some (some ⟨0⟩) &&
    ((g.lastInst ⟨0⟩).bind fun i => g.nodes[i.index]?).any (fun n => n.inst matches .goto _) &&
    g.next ⟨2⟩ == [⟨1⟩] && g.next ⟨3⟩ == [⟨1⟩] && g.next ⟨4⟩ == [⟨3⟩]

/-- The pre-header of block 1 ends in a jump, but block 2 is outside the loop and leads to block 1 as well. Block 4
leads to the back edge around block 1, but it is not in the loop. -/
theorem caughtLoop_entered_twice : ∃ g headers g', g.Current ∧ computeLoops g = .ok (headers, g') ∧
    headers = [⟨1⟩] ∧ g.preorder = [⟨0⟩, ⟨2⟩, ⟨1⟩, ⟨3⟩] ∧ (∃ k, g'.blocks[1]? = some k ∧ k.loop = some [2, 3]) ∧
    g'.preHeader? ⟨1⟩ = .ok (some ⟨0⟩) ∧ g.EndsInGoto ⟨0⟩ ∧ g.next ⟨2⟩ = [⟨1⟩] ∧ g.next ⟨3⟩ = [⟨1⟩] ∧
    g.next ⟨4⟩ = [⟨3⟩] := by
  have hcompute : (looped caughtLoop).map (fun r => caughtLoopHolds r.1 r.2.1 r.2.2) = some true := by decide +kernel
  obtain ⟨⟨g, headers, g'⟩, hlooped, hholds⟩ := Option.map_eq_some_iff.mp hcompute
  simp only [caughtLoopHolds, Bool.and_eq_true, decide_eq_true_eq, beq_iff_eq, Option.any_eq_true,
    toOption_eq_some_iff, Option.bind_eq_some_iff] at hholds
  obtain ⟨⟨⟨⟨⟨⟨⟨⟨hcurrent, hheaders⟩, hpreorder⟩, hloop⟩, hpre⟩, n, ⟨i, hlast, hn⟩, hgoto⟩, htwo⟩, hthree⟩, hfour⟩ :=
    hholds
  split at hgoto
  case h_2 => cases hgoto
  case h_1 target heq =>
    exact ⟨g, headers, g', hcurrent, run_of_looped hlooped, hheaders, hpreorder, hloop, hpre,
      ⟨i, n, target, hlast, hn, heq⟩, htwo, hthree, hfour⟩

end Flow

end Midend
