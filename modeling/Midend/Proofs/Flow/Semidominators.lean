import Midend.Proofs.Flow.Dominance

/-! # Dominators from semidominators

The dominator tree is computed from semidominators, in a forest whose paths are shortened while it is searched. What
comes out is what taking out one block after the other would give.
-/

namespace Midend.Flow

open Relation

variable {preds : Array (List Nat)} {parents : Array (Option Nat)} {a b c d m n p q s u v w x y z : Nat}

/-- The numbers are those of a depth-first walk. An edge to a greater number leads to what was discovered below its
source, and all that was discovered below a number comes right after it. -/
structure DepthFirst (preds : Array (List Nat)) (parents : Array (Option Nat)) : Prop extends Rooted preds parents where
  size : parents.size = preds.size
  forward : ∀ b, ∀ p ∈ preds.getD b [], p < b → Above parents b p
  interval : ∀ a b x, Above parents b a → a ≤ x → x ≤ b → Above parents x a

/-! ## Paths over greater numbers -/

/-- A path leads from `x` to `y`, and nothing that comes after `x` is smaller than `m`. -/
abbrev PathOver (preds : Array (List Nat)) (m : Nat) : Nat → Nat → Prop :=
  ReflTransGen fun p b => p ∈ preds.getD b [] ∧ m ≤ b

theorem PathOver.mono (h : PathOver preds m x y) (hle : n ≤ m) : PathOver preds n x y :=
  ReflTransGen.mono (fun _ _ hstep => ⟨hstep.1, Nat.le_trans hle hstep.2⟩) _ _ h

theorem PathOver.exists_least (h : PathOver preds m x y) (hne : x ≠ y) :
    ∃ u, m ≤ u ∧ PathOver preds u x u ∧ PathOver preds u u y := by
  induction h using ReflTransGen.head_induction_on with
  | refl => exact absurd rfl hne
  | @head x z hxz hzy ih =>
    by_cases hz : z = y
    · subst hz
      exact ⟨z, hxz.2, .single ⟨hxz.1, Nat.le_refl z⟩, .refl⟩
    obtain ⟨u, hmu, hzu, huy⟩ := ih hz
    obtain hle | hle := Nat.le_total u z
    · exact ⟨u, hmu, .head ⟨hxz.1, hle⟩ hzu, huy⟩
    · exact ⟨z, hxz.2, .single ⟨hxz.1, Nat.le_refl z⟩, (PathOver.mono hzu hle).trans (PathOver.mono huy hle)⟩

theorem PathOver.exists_pred (h : PathOver preds u v u) (hne : v ≠ u) :
    ∃ q ∈ preds.getD u [], PathOver preds (u + 1) v q := by
  induction h using ReflTransGen.head_induction_on with
  | refl => exact absurd rfl hne
  | @head x z hxz _ ih =>
    by_cases hz : z = u
    · subst hz
      exact ⟨x, hxz.1, .refl⟩
    obtain ⟨q, hq, hzq⟩ := ih hz
    have hle := hxz.2
    exact ⟨q, hq, .head ⟨hxz.1, by omega⟩ hzq⟩

/-- `s` is the smallest number from which a path leads to `w` over none that is smaller than `w`. -/
structure IsSemidominator (preds : Array (List Nat)) (w s : Nat) : Prop where
  lt : s < w
  path : PathOver preds w s w
  least : ∀ v, PathOver preds w v w → s ≤ v

/-! ## Paths past a block, continued -/

theorem Escapes.append (h : Escapes preds a x) (hne : x ≠ a) (hpath : PathOver preds m x y) (ham : a < m) :
    Escapes preds a y := by
  suffices hboth : Escapes preds a y ∧ y ≠ a from hboth.1
  induction hpath with
  | refl => exact ⟨h, hne⟩
  | tail _ hstep ih =>
    have hle := hstep.2
    exact ⟨ih.1.of_pred hstep.1 ih.2, by omega⟩

theorem Escapes.exists_pathOver (h : Escapes preds d w) (hd : 0 < d) (hw : d < w) :
    ∃ x < d, PathOver preds (d + 1) x w := by
  induction h using ReflTransGen.head_induction_on with
  | refl => omega
  | @head w p hp _ ih =>
    obtain ⟨hmem, hne⟩ := mem_predsAvoiding.mp hp
    obtain hlt | hle := Nat.lt_or_ge p d
    · exact ⟨p, hlt, .single ⟨hmem, hw⟩⟩
    · obtain ⟨x, hx, hpath⟩ := ih (by omega)
      exact ⟨x, hx, hpath.tail ⟨hmem, hw⟩⟩

theorem Escapes.past_or_to (h : Escapes preds a b) (c : Nat) : Escapes preds c b ∨ Escapes preds a c := by
  induction h using ReflTransGen.head_induction_on with
  | refl => exact .inl .refl
  | @head b p hp hescapes ih =>
    by_cases hpc : p = c
    · subst hpc
      exact .inr hescapes
    · exact ih.imp_left fun h => h.of_pred (mem_predsAvoiding.mp hp).1 hpc

namespace Rooted

variable (hr : Rooted preds parents)

include hr

theorem escapes_of_lt (hx : x < a) (hsize : x < preds.size) : Escapes preds a x := by
  induction x using Nat.strong_induction_on with
  | _ x ih =>
    rcases Nat.eq_zero_or_pos x with rfl | hpos
    · exact .refl
    · obtain ⟨p, hp⟩ := hr.parent x hpos hsize
      have hlt : p < x := hr.parent_lt x p hp
      exact (ih p hlt (by omega) (by omega)).of_pred (hr.parent_mem x p hp) (by omega)

theorem pathOver_of_above (h : Above parents x u) : PathOver preds u u x := by
  induction h using ReflTransGen.head_induction_on with
  | refl => exact .refl
  | @head x p hp habove ih =>
    have hlt := hr.parent_lt x p hp
    have hle := hr.parent_lt.le habove
    exact ih.tail ⟨hr.parent_mem x p hp, by omega⟩

theorem not_escapes_of_above_idoms (h : Above (idoms preds parents) b a) (hne : a ≠ b) : ¬ Escapes preds a b := by
  induction h using ReflTransGen.head_induction_on with
  | refl => exact absurd rfl hne
  | @head b c hup _ ih =>
    have hdom := (hr.idom_spec hup).2.2.1
    by_cases hac : a = c
    · subst hac
      exact hdom
    · intro hescapes
      exact (hescapes.past_or_to c).elim hdom (ih hac)

theorem exists_parent_le (hb : b < x) (hx : x < preds.size) :
    ∃ u t, Above parents x u ∧ b < u ∧ Up parents u t ∧ t ≤ b := by
  induction x using Nat.strong_induction_on with
  | _ x ih =>
    obtain ⟨p, hp⟩ := hr.parent x (by omega) hx
    have hlt := hr.parent_lt x p hp
    obtain hgt | hle := Nat.lt_or_ge b p
    · obtain ⟨u, t, hu, hbu, ht, htb⟩ := ih p hlt hgt (by omega)
      exact ⟨u, t, hu.head hp, hbu, ht, htb⟩
    · exact ⟨x, p, .refl, hb, hp, hle⟩

end Rooted

namespace DepthFirst

variable (hd : DepthFirst preds parents)

include hd

theorem above_of_pathOver (h : PathOver preds v v z) : Above parents z v := by
  induction h with
  | refl => exact .refl
  | @tail y z _ hstep ih =>
    obtain hlt | hle := Nat.lt_or_ge y z
    · exact (hd.forward z y hstep.1 hlt).trans ih
    · exact hd.interval v y z ih hstep.2 hle

/-- The semidominator of `w` comes from a predecessor that is smaller or from the semidominators on the way up from one
that is greater. -/
theorem isSemidominator_of_preds {semi : Nat → Nat} (hw : 0 < w) (hsize : w < preds.size)
    (hgreater : ∀ u, w < u → u < preds.size → IsSemidominator preds u (semi u)) (hpath : PathOver preds w s w)
    (hsmall : ∀ p ∈ preds.getD w [], p < w → s ≤ p)
    (hgreat : ∀ p ∈ preds.getD w [], w < p → ∀ u, Above parents p u → w < u → s ≤ semi u) :
    IsSemidominator preds w s := by
  obtain ⟨parent, hparent⟩ := hd.parent w hw hsize
  have hlt := hd.parent_lt w parent hparent
  have hle := hsmall parent (hd.parent_mem w parent hparent) hlt
  refine ⟨by omega, hpath, fun v hv => ?_⟩
  obtain hvw | hwv := Nat.lt_or_ge v w
  case inr => omega
  obtain ⟨p, hp, hvp⟩ := PathOver.exists_pred hv (Nat.ne_of_lt hvw)
  by_cases hne : v = p
  · subst hne
    exact hsmall v hp hvw
  -- The smallest number on the way to the predecessor is above it, and `v` leads to it over greater ones.
  obtain ⟨u, hwu, hvu, hup⟩ := PathOver.exists_least hvp hne
  have habove := hd.above_of_pathOver hup
  have hup' := hd.parent_lt.le habove
  have hpsize := hd.bounded w p hp
  exact Nat.le_trans (hgreat p hp (by omega) u habove (by omega)) ((hgreater u (by omega) (by omega)).least v hvu)

theorem not_escapes_of_le (hp : Up parents w p) (hs : IsSemidominator preds w s) (hsize : w < preds.size)
    (habove : Above (idoms preds parents) p d) (hle : d ≤ s) : ¬ Escapes preds d w := by
  intro hescapes
  have hpw := hd.parent_lt w p hp
  have hdp := hd.falling_idoms.le habove
  rcases Nat.eq_zero_or_pos d with rfl | hpos
  · exact not_escapes_entry (by omega) hescapes
  obtain ⟨x, hxd, hxw⟩ := hescapes.exists_pathOver hpos (by omega)
  obtain ⟨u, hdu, hxu, huw⟩ := PathOver.exists_least hxw (by omega)
  obtain rfl | ⟨q, hq, hqu⟩ := (hd.above_of_pathOver huw).cases_head
  · have := hs.least x hxu
    omega
  obtain rfl := Up.unique hp hq
  have hup := hd.parent_lt.le hqu
  have hdom := hd.not_escapes_of_above_idoms habove (by omega)
  have hx : Escapes preds d x := hd.escapes_of_lt hxd (by omega)
  exact hdom (hd.escapes_of_above (hx.append (by omega) hxu (by omega)) hqu (by omega))

theorem up_idoms_of_semidominator (hp : Up parents w p) (hs : IsSemidominator preds w s) (hsize : w < preds.size)
    (habove : Above (idoms preds parents) p d) (hle : d ≤ s)
    (hfirst : ∀ e, Above (idoms preds parents) p e → e ≤ s → Above (idoms preds parents) d e) :
    Up (idoms preds parents) w d := by
  have hpw := hd.parent_lt w p hp
  obtain ⟨i, hi⟩ := hd.exists_idom hsize (by omega)
  obtain ⟨hiw, hwi, hidom, -⟩ := hd.idom_spec hi
  have hpi : Above (idoms preds parents) p i := hd.above_idoms_of_pred hi (hd.parent_mem w p hp)
  have his : i ≤ s := by
    by_contra hlt
    have hsw := hs.lt
    have hescapes : Escapes preds i s := hd.escapes_of_lt (by omega) (by omega)
    exact hidom (hescapes.append (by omega) hs.path hiw)
  have hid : i ≤ d := hd.falling_idoms.le (hfirst i hpi his)
  have hdom := hd.not_escapes_of_le hp hs hsize habove hle
  obtain rfl | ⟨j, hj, hjd⟩ := (hd.above_idoms_of_not_escapes hsize hdom).cases_head
  · have := hd.falling_idoms.le habove
    omega
  obtain rfl := Up.unique hi hj
  have hdi : d ≤ i := hd.falling_idoms.le hjd
  obtain rfl : d = i := by omega
  exact hi

end DepthFirst

/-! ## The forest -/

namespace Forest

variable {f f' : Forest}

theorem linkAt_skip (hx : x < f.link.size) :
    (f.skip x y).linkAt z = if z = x then f.linkAt y else f.linkAt z := by
  unfold skip linkAt
  rw [Array.getElem?_setIfInBounds]
  by_cases hz : z = x
  · simp [hz, hx]
  · simp [hz, Ne.symm hz]

theorem labelAt_skip (hx : x < f.label.size) :
    (f.skip x y).labelAt z = if z = x then min (f.labelAt x) (f.labelAt y) else f.labelAt z := by
  unfold skip labelAt
  simp only [Array.getD_eq_getD_getElem?, Array.getElem?_modify]
  by_cases hz : z = x
  · simp [hz, hx]
  · simp [hz, Ne.symm hz]

@[simp] theorem semiAt_skip : (f.skip x y).semiAt z = f.semiAt z := rfl

theorem semiAt_enter (hb : b < f.semi.size) (best : Nat) :
    { f with semi := f.semi.modify b (min · best) : Forest }.semiAt z =
      if z = b then min (f.semiAt b) best else f.semiAt z := by
  unfold semiAt
  simp only [Array.getD_eq_getD_getElem?, Array.getElem?_modify]
  by_cases hz : z = b
  · simp [hz, hb]
  · simp [hz, Ne.symm hz]

theorem labelAt_treat (hb : b < f.label.size) (s : Nat) :
    { f with label := f.label.setIfInBounds b s : Forest }.labelAt z = if z = b then s else f.labelAt z := by
  unfold labelAt
  simp only [Array.getD_eq_getD_getElem?, Array.getElem?_setIfInBounds]
  by_cases hz : z = b
  · simp [hz, hb]
  · simp [hz, Ne.symm hz]

/-- `x` is linked to `y`. The way there goes over numbers greater than `b`, and the label is the least of their
semidominators. -/
structure Linked (parents : Array (Option Nat)) (b : Nat) (f : Forest) (x y : Nat) : Prop where
  link : f.linkAt x = some y
  above : Above parents x y
  lt : y < x
  between : ∀ u, Above parents x u → y < u → b < u
  least : ∀ u, Above parents x u → y < u → f.labelAt x ≤ f.semiAt u
  attained : ∃ u, Above parents x u ∧ y < u ∧ f.labelAt x = f.semiAt u

theorem Linked.congr (h : Linked parents b f x y) (hlink : f'.linkAt x = f.linkAt x)
    (hlabel : f'.labelAt x = f.labelAt x) (hsemi : ∀ u, b < u → f'.semiAt u = f.semiAt u) :
    Linked parents b f' x y where
  link := hlink.trans h.link
  above := h.above
  lt := h.lt
  between := h.between
  least u hu hyu := by
    rw [hlabel, hsemi u (h.between u hu hyu)]
    exact h.least u hu hyu
  attained := by
    obtain ⟨u, hu, hyu, heq⟩ := h.attained
    exact ⟨u, hu, hyu, by rw [hlabel, hsemi u (h.between u hu hyu), heq]⟩

theorem Linked.skip (hf : Falling parents) (hx : Linked parents b f x y) (hy : Linked parents b f y z)
    (hlink : x < f.link.size) (hlabel : x < f.label.size) : Linked parents b (f.skip x y) x z := by
  have hlabel' : (f.skip x y).labelAt x = min (f.labelAt x) (f.labelAt y) := by rw [labelAt_skip hlabel, if_pos rfl]
  -- The way from `x` to `z` is the one to `y` and the one from there.
  have hway (u : Nat) (hu : Above parents x u) : y < u ∨ Above parents y u := by
    obtain hyu | huy := Above.total hx.above hu
    · exact .inr hyu
    · obtain hlt | heq := Nat.lt_or_eq_of_le (hf.le huy)
      · exact .inl hlt
      · exact .inr (heq ▸ .refl)
  exact {
    link := by rw [linkAt_skip hlink, if_pos rfl, hy.link]
    above := hx.above.trans hy.above
    lt := Nat.lt_trans hy.lt hx.lt
    between := fun u hu hzu => (hway u hu).elim (hx.between u hu) fun h => hy.between u h hzu
    least := by
      intro u hu hzu
      rw [hlabel', semiAt_skip]
      obtain hyu | hyu := hway u hu
      · exact Nat.le_trans (Nat.min_le_left _ _) (hx.least u hu hyu)
      · exact Nat.le_trans (Nat.min_le_right _ _) (hy.least u hyu hzu)
    attained := by
      rw [hlabel']
      obtain hmin | hmin := min_choice (f.labelAt x) (f.labelAt y)
      · obtain ⟨u, hu, hyu, heq⟩ := hx.attained
        exact ⟨u, hu, Nat.lt_trans hy.lt hyu, by rw [hmin, heq, semiAt_skip]⟩
      · obtain ⟨u, hu, hzu, heq⟩ := hy.attained
        exact ⟨u, hx.above.trans hu, hzu, by rw [hmin, heq, semiAt_skip]⟩ }

/-- What is known once all numbers greater than `b` have been treated. -/
structure Evaluated (preds : Array (List Nat)) (parents : Array (Option Nat)) (b : Nat) (f : Forest) : Prop where
  semi_size : f.semi.size = preds.size
  link_size : f.link.size = preds.size
  label_size : f.label.size = preds.size
  linked : ∀ x, b < x → x < preds.size → ∃ y, Linked parents b f x y
  settled : ∀ x, b < x → x < preds.size → IsSemidominator preds x (f.semiAt x)
  untouched : ∀ x, x < b → f.semiAt x = x
  parent : ∀ x, x ≤ b → f.linkAt x = (parents[x]?).join

theorem Evaluated.compress (hf : Falling parents) (h : Evaluated preds parents b f) {steps : Nat} (hsteps : x ≤ steps)
    (hb : b < x) (hx : x < preds.size) :
    Evaluated preds parents b (f.compress b steps x) ∧ (f.compress b steps x).semi = f.semi ∧
      (∀ z, x < z → (f.compress b steps x).linkAt z = f.linkAt z ∧ (f.compress b steps x).labelAt z = f.labelAt z) ∧
      ∃ y ≤ b, Linked parents b (f.compress b steps x) x y := by
  induction steps generalizing x with
  | zero => omega
  | succ steps ih =>
    obtain ⟨y, hy⟩ := h.linked x hb hx
    have hyx := hy.lt
    unfold Forest.compress
    simp only [hy.link]
    split
    case isFalse hle => exact ⟨h, rfl, fun z _ => ⟨rfl, rfl⟩, y, by omega, hy⟩
    case isTrue hlt =>
      obtain ⟨h', hsemi, hkeep, z, hz, hyz⟩ := @ih y (by omega) hlt (by omega)
      generalize f.compress b steps y = f' at h' hsemi hkeep hyz ⊢
      have hlink : x < f'.link.size := h'.link_size ▸ hx
      have hlabel : x < f'.label.size := h'.label_size ▸ hx
      have hxy : Linked parents b f' x y :=
        hy.congr (hkeep x hyx).1 (hkeep x hyx).2 fun u _ => by unfold semiAt; rw [hsemi]
      have hother (v : Nat) (hv : v ≠ x) :
          (f'.skip x y).linkAt v = f'.linkAt v ∧ (f'.skip x y).labelAt v = f'.labelAt v := by
        rw [linkAt_skip hlink, labelAt_skip hlabel, if_neg hv, if_neg hv]
        exact ⟨rfl, rfl⟩
      have hskip := hxy.skip hf hyz hlink hlabel
      refine ⟨?_, hsemi, fun v hv => ?_, z, hz, hskip⟩
      · exact { h' with
          link_size := by simpa [Forest.skip] using h'.link_size
          label_size := by simpa [Forest.skip] using h'.label_size
          linked := by
            intro v hbv hv
            by_cases hvx : v = x
            · subst hvx
              exact ⟨z, hskip⟩
            · obtain ⟨w, hw⟩ := h'.linked v hbv hv
              exact ⟨w, hw.congr (hother v hvx).1 (hother v hvx).2 fun _ _ => rfl⟩
          parent := by
            intro v hv
            rw [(hother v (by omega)).1]
            exact h'.parent v hv }
      · have hk := hkeep v (by omega)
        have ho := hother v (by omega)
        exact ⟨ho.1.trans hk.1, ho.2.trans hk.2⟩

/-- What is known of `b` once the predecessors of `done` have been taken into account. -/
structure Entering (preds : Array (List Nat)) (parents : Array (Option Nat)) (b : Nat) (f : Forest)
    (done : List Nat) : Prop extends Evaluated preds parents b f where
  le : f.semiAt b ≤ b
  path : PathOver preds b (f.semiAt b) b
  small : ∀ p ∈ done, p < b → f.semiAt b ≤ p
  great : ∀ p ∈ done, b < p → ∀ u, Above parents p u → b < u → f.semiAt b ≤ f.semiAt u

theorem Entering.lower {done : List Nat} {e : Nat} (h : Entering preds parents b f done) (hb : b < preds.size)
    (hpath : PathOver preds b e b) (hsmall : p < b → e ≤ p)
    (hgreat : b < p → ∀ u, Above parents p u → b < u → min (f.semiAt b) e ≤ f.semiAt u) :
    Entering preds parents b { f with semi := f.semi.modify b (min · e) } (done ++ [p]) := by
  have hsemi (z : Nat) := @semiAt_enter b z f (h.semi_size ▸ hb) e
  have hself : { f with semi := f.semi.modify b (min · e) : Forest }.semiAt b = min (f.semiAt b) e := by
    rw [hsemi, if_pos rfl]
  have hother (z : Nat) (hz : z ≠ b) : { f with semi := f.semi.modify b (min · e) : Forest }.semiAt z = f.semiAt z := by
    rw [hsemi, if_neg hz]
  have hle := h.le
  exact {
    semi_size := by simpa using h.semi_size
    link_size := h.link_size
    label_size := h.label_size
    linked := by
      intro x hbx hx
      obtain ⟨y, hy⟩ := h.linked x hbx hx
      exact ⟨y, hy.congr rfl rfl fun u hu => hother u (by omega)⟩
    settled := by
      intro x hbx hx
      rw [hother x (by omega)]
      exact h.settled x hbx hx
    untouched := by
      intro x hx
      rw [hother x (by omega)]
      exact h.untouched x hx
    parent := h.parent
    le := by omega
    path := by
      rw [hself]
      obtain hmin | hmin := min_choice (f.semiAt b) e
      · rw [hmin]
        exact h.path
      · rw [hmin]
        exact hpath
    small := by
      intro q hq hqb
      rw [hself]
      obtain hq | hq := List.mem_append.mp hq
      · exact Nat.le_trans (Nat.min_le_left _ _) (h.small q hq hqb)
      · obtain rfl := List.mem_singleton.mp hq
        exact Nat.le_trans (Nat.min_le_right _ _) (hsmall hqb)
    great := by
      intro q hq hbq u hu hbu
      rw [hself, hother u (by omega)]
      obtain hq | hq := List.mem_append.mp hq
      · exact Nat.le_trans (Nat.min_le_left _ _) (h.great q hq hbq u hu hbu)
      · obtain rfl := List.mem_singleton.mp hq
        exact hgreat hbq u hu hbu }

theorem Entering.enter {done : List Nat} (hd : DepthFirst preds parents) (h : Entering preds parents b f done)
    (hb : b < preds.size) (hp : p ∈ preds.getD b []) : Entering preds parents b (f.enter b p) (done ++ [p]) := by
  unfold Forest.enter
  by_cases hbp : b < p
  case neg =>
    simp only [if_neg hbp]
    obtain hlt | rfl := Nat.lt_or_eq_of_le (Nat.le_of_not_lt hbp)
    · have hedge : PathOver preds b p b := .single ⟨hp, Nat.le_refl b⟩
      have hself := h.untouched p hlt
      exact h.lower hb (by rwa [hself]) (fun _ => Nat.le_of_eq hself) fun hgt => absurd hgt hbp
    · exact h.lower hb h.path (fun hlt => absurd hlt (Nat.lt_irrefl p)) fun hgt => absurd hgt hbp
  case pos =>
    simp only [if_pos hbp]
    have hsize := hd.bounded b p hp
    obtain ⟨h', hsemi, -, y, hyb, hy⟩ := h.toEvaluated.compress hd.parent_lt (Nat.le_refl p) hbp hsize
    generalize f.compress b p p = f' at h' hsemi hy ⊢
    have hsemiAt (z : Nat) : f'.semiAt z = f.semiAt z := by unfold semiAt; rw [hsemi]
    have hentering : Entering preds parents b f' done := {
      toEvaluated := h'
      le := by simpa [hsemiAt] using h.le
      path := by simpa [hsemiAt] using h.path
      small := by simpa [hsemiAt] using h.small
      great := by simpa [hsemiAt] using h.great }
    have hle := hentering.le
    -- The label is a semidominator on the way up, and at most `b`.
    obtain ⟨u, hu, hyu, hlabel⟩ := hy.attained
    have hbu := hy.between u hu hyu
    have hup := hd.parent_lt.le hu
    obtain ⟨u', t, hu', hbu', ht, htb⟩ := hd.exists_parent_le hbp hsize
    have hu'p := hd.parent_lt.le hu'
    have hedge : PathOver preds u' t u' := .single ⟨hd.parent_mem u' t ht, Nat.le_refl u'⟩
    have hsmall : f'.labelAt p ≤ b :=
      calc f'.labelAt p ≤ f'.semiAt u' := hy.least u' hu' (by omega)
        _ ≤ t := (h'.settled u' hbu' (by omega)).least t hedge
        _ ≤ b := htb
    have hgreat (v : Nat) (hv : Above parents p v) (hbv : b < v) : f'.labelAt p ≤ f'.semiAt v :=
      hy.least v hv (by omega)
    obtain hlt | heq := Nat.lt_or_eq_of_le hsmall
    · have hself := h'.untouched _ hlt
      refine hentering.lower hb ?_ (fun hpb => absurd hpb (by omega)) fun _ v hv hbv => ?_
      · have hsettled := (h'.settled u hbu (by omega)).path
        have hdown := PathOver.mono (hd.pathOver_of_above hu) (Nat.le_of_lt hbu)
        rw [hself, hlabel]
        exact ((PathOver.mono hsettled (Nat.le_of_lt hbu)).trans hdown).tail ⟨hp, Nat.le_refl b⟩
      · rw [hself]
        exact Nat.le_trans (Nat.min_le_right _ _) (hgreat v hv hbv)
    · rw [heq]
      refine hentering.lower hb hentering.path (fun hpb => absurd hpb (by omega)) fun _ v hv hbv => ?_
      have := hgreat v hv hbv
      omega

theorem Entering.foldl (hd : DepthFirst preds parents) (hb : b < preds.size) {done rest : List Nat}
    (hrest : done ++ rest = preds.getD b []) (h : Entering preds parents b f done) :
    Entering preds parents b (rest.foldl (Forest.enter b) f) (preds.getD b []) := by
  induction rest generalizing done f with
  | nil => rwa [← hrest, List.append_nil]
  | cons p rest ih =>
    have hp : p ∈ preds.getD b [] := by rw [← hrest]; simp
    exact ih (by simpa using hrest) (h.enter hd hb hp)

theorem Evaluated.treat (hd : DepthFirst preds parents) (h : Evaluated preds parents (b + 1) f)
    (hself : f.semiAt (b + 1) = b + 1) (hb : b + 1 < preds.size) :
    Evaluated preds parents b (f.treat preds (b + 1)) ∧ (f.treat preds (b + 1)).semiAt b = b := by
  have hstart : Entering preds parents (b + 1) f [] := { h with
    le := Nat.le_of_eq hself
    path := by rw [hself]
    small := by simp
    great := by simp }
  have hentering := hstart.foldl hd hb (List.nil_append _)
  unfold Forest.treat
  generalize (preds.getD (b + 1) []).foldl (Forest.enter (b + 1)) f = f' at hentering ⊢
  have hlabel (z : Nat) := @labelAt_treat (b + 1) z f' (hentering.label_size ▸ hb) (f'.semiAt (b + 1))
  have hsemi : IsSemidominator preds (b + 1) (f'.semiAt (b + 1)) :=
    hd.isSemidominator_of_preds (Nat.succ_pos b) hb hentering.settled hentering.path hentering.small hentering.great
  obtain ⟨t, ht⟩ := hd.parent (b + 1) (Nat.succ_pos b) hb
  have htb := hd.parent_lt (b + 1) t ht
  have honly (u : Nat) (hu : Above parents (b + 1) u) (htu : t < u) : u = b + 1 := by
    obtain rfl | ⟨t', ht', habove⟩ := hu.cases_head
    · rfl
    · obtain rfl := Up.unique ht ht'
      have := hd.parent_lt.le habove
      omega
  refine ⟨?_, hentering.untouched b (Nat.lt_succ_self b)⟩
  exact {
    semi_size := hentering.semi_size
    link_size := hentering.link_size
    label_size := by simpa using hentering.label_size
    linked := by
      intro x hbx hx
      by_cases hxb : x = b + 1
      · subst hxb
        refine ⟨t, ?_, .single ht, htb, fun u hu htu => ?_, fun u hu htu => ?_, b + 1, .refl, htb, ?_⟩
        · exact (hentering.parent (b + 1) (Nat.le_refl _)).trans ht
        · rw [honly u hu htu]
          omega
        · rw [honly u hu htu, hlabel, if_pos rfl]
          exact Nat.le_refl _
        · rw [hlabel, if_pos rfl]
          rfl
      · obtain ⟨y, hy⟩ := hentering.linked x (by omega) hx
        have hweaker : Linked parents b f' x y :=
          { hy with between := fun u hu hyu => by have := hy.between u hu hyu; omega }
        exact ⟨y, hweaker.congr rfl (by rw [hlabel, if_neg hxb]) fun _ _ => rfl⟩
    settled := by
      intro x hbx hx
      by_cases hxb : x = b + 1
      · subst hxb
        exact hsemi
      · exact hentering.settled x (by omega) hx
    untouched := fun x hx => hentering.untouched x (by omega)
    parent := fun x hx => hentering.parent x (by omega) }

theorem Evaluated.foldl (hd : DepthFirst preds parents) (h : Evaluated preds parents b f) (hself : f.semiAt b = b)
    (hb : b < preds.size) : Evaluated preds parents 0 ((List.range' 1 b).reverse.foldl (Forest.treat preds) f) := by
  induction b generalizing f with
  | zero => exact h
  | succ b ih =>
    rw [List.range'_1_concat, List.reverse_append]
    obtain ⟨h', hself'⟩ := h.treat hd hself hb
    rw [Nat.add_comm 1 b]
    exact ih h' hself' (by omega)

end Forest

theorem DepthFirst.semidominators_spec (hd : DepthFirst preds parents) (hx : 0 < x) (hsize : x < preds.size) :
    IsSemidominator preds x ((semidominators preds parents).semiAt x) := by
  have hself (y : Nat) (hy : y < preds.size) : (Forest.start parents).semiAt y = y := by
    simp [Forest.semiAt, Forest.start, hd.size, hy]
  have hstart : Forest.Evaluated preds parents (preds.size - 1) (Forest.start parents) := {
    semi_size := by simp [Forest.start, hd.size]
    link_size := hd.size
    label_size := by simp [Forest.start, hd.size]
    linked := fun x hbx hx => by omega
    settled := fun x hbx hx => by omega
    untouched := fun x hx => hself x (by omega)
    parent := fun x _ => rfl }
  exact (hstart.foldl hd (hself _ (by omega)) (by omega)).settled x hx hsize

/-! ## The tree -/

theorem DepthFirst.notAbove_spec (hd : DepthFirst preds parents) {tree : Array (Option Nat)} {steps : Nat}
    (htree : ∀ x, x ≤ n → (tree[x]?).join = ((idoms preds parents)[x]?).join) (hn : n < preds.size) (hdn : d ≤ n)
    (hsteps : d ≤ steps) :
    Above (idoms preds parents) d (notAbove tree s steps d) ∧ notAbove tree s steps d ≤ s ∧
      ∀ e, Above (idoms preds parents) d e → e ≤ s → Above (idoms preds parents) (notAbove tree s steps d) e := by
  induction steps generalizing d with
  | zero =>
    obtain rfl : d = 0 := by omega
    exact ⟨.refl, Nat.zero_le s, fun e he _ => he⟩
  | succ steps ih =>
    unfold notAbove
    split
    case isFalse hle => exact ⟨.refl, by omega, fun e he _ => he⟩
    case isTrue hlt =>
      obtain ⟨i, hi⟩ := hd.exists_idom (b := d) (by omega) (by omega)
      have hid := hd.falling_idoms d i hi
      have hget : ((tree[d]?).join).getD 0 = i := by
        rw [htree d hdn, hi, Option.getD_some]
      rw [hget]
      obtain ⟨habove, hle, hfirst⟩ := @ih i (by omega) (by omega)
      refine ⟨habove.head hi, hle, fun e he hes => ?_⟩
      obtain rfl | ⟨j, hj, hje⟩ := he.cases_head
      · omega
      · obtain rfl := Up.unique hi hj
        exact hfirst e hje hes

/-- The numbers up to `n` have their immediate dominators, and the others still have their parents. -/
structure SettledUpTo (preds : Array (List Nat)) (parents : Array (Option Nat)) (n : Nat)
    (tree : Array (Option Nat)) : Prop where
  size : tree.size = parents.size
  done : ∀ x, x ≤ n → (tree[x]?).join = ((idoms preds parents)[x]?).join
  left : ∀ x, n < x → tree[x]? = parents[x]?

theorem SettledUpTo.settle (hd : DepthFirst preds parents) {tree : Array (Option Nat)}
    (h : SettledUpTo preds parents n tree) (hn : n + 1 < preds.size) :
    SettledUpTo preds parents (n + 1) (Flow.settle (semidominators preds parents) tree (n + 1)) := by
  have hget (x : Nat) : (Flow.settle (semidominators preds parents) tree (n + 1))[x]? = if n + 1 = x then
      (tree[x]?).map (Option.map fun p => notAbove tree ((semidominators preds parents).semiAt (n + 1)) p p)
      else tree[x]? := Array.getElem?_modify
  refine ⟨?_, fun x hx => ?_, fun x hx => ?_⟩
  · simpa [Flow.settle] using h.size
  · obtain hlt | rfl := Nat.lt_or_eq_of_le hx
    · rw [hget, if_neg (by omega)]
      exact h.done x (by omega)
    · obtain ⟨p, hp⟩ := hd.parent (n + 1) (Nat.succ_pos n) hn
      have hpn := hd.parent_lt (n + 1) p hp
      obtain ⟨habove, hle, hfirst⟩ := hd.notAbove_spec (s := (semidominators preds parents).semiAt (n + 1)) h.done
        (by omega) (Nat.le_of_lt_succ hpn) (Nat.le_refl p)
      have hup := hd.up_idoms_of_semidominator hp (hd.semidominators_spec (Nat.succ_pos n) hn) hn habove hle hfirst
      have hparent : parents[n + 1]? = some (some p) := by
        unfold Up at hp
        cases hq : parents[n + 1]? with
        | none => simp [hq] at hp
        | some q => simpa [hq] using hp
      rw [hget, if_pos rfl, h.left (n + 1) (Nat.lt_succ_self n), hparent]
      exact hup.symm
  · rw [hget, if_neg (by omega)]
    exact h.left x (by omega)

theorem SettledUpTo.foldl (hd : DepthFirst preds parents) (h : SettledUpTo preds parents 0 parents)
    (hn : n < preds.size) :
    SettledUpTo preds parents n ((List.range' 1 n).foldl (Flow.settle (semidominators preds parents)) parents) := by
  induction n with
  | zero => exact h
  | succ n ih =>
    rw [List.range'_1_concat, List.foldl_append, Nat.add_comm 1 n]
    exact (ih (by omega)).settle hd hn

/-- The computed tree is the one that taking out one block after the other gives. -/
theorem DepthFirst.dominatorTree_eq (hd : DepthFirst preds parents) :
    dominatorTree preds parents = idoms preds parents := by
  have hentry : (parents[0]?).join = none := by
    cases h : (parents[0]?).join with
    | none => rfl
    | some p => exact absurd (hd.parent_lt 0 p h) (Nat.not_lt_zero p)
  have hsize : (idoms preds parents).size = preds.size := by simp [idoms]
  rcases Nat.eq_zero_or_pos preds.size with hzero | hpos
  · have hnil : parents = #[] := Array.eq_empty_of_size_eq_zero (hd.size.trans hzero)
    simp [dominatorTree, numbersUp, idoms, hzero, hnil]
  have hstart : SettledUpTo preds parents 0 parents := by
    refine ⟨rfl, fun x hx => ?_, fun _ _ => rfl⟩
    obtain rfl : x = 0 := by omega
    simp [idoms, hpos, hentry]
  have hall := SettledUpTo.foldl hd hstart (n := preds.size - 1) (by omega)
  refine Array.ext_getElem? fun x => ?_
  have hdone := hall.done x
  have htree : (dominatorTree preds parents).size = preds.size := hall.size.trans hd.size
  unfold dominatorTree numbersUp at htree ⊢
  generalize (List.range' 1 (preds.size - 1)).foldl _ parents = tree at htree hdone ⊢
  obtain hlt | hle := Nat.lt_or_ge x preds.size
  · have hx := hdone (by omega)
    rw [Array.getElem?_eq_getElem (htree ▸ hlt), Array.getElem?_eq_getElem (hsize ▸ hlt)] at hx ⊢
    exact congrArg some hx
  · rw [Array.getElem?_eq_none (by omega), Array.getElem?_eq_none (by omega)]

end Midend.Flow
