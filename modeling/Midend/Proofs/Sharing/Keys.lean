import Midend.Inst.Value
import Midend.Proofs.Constants.Knowledge
import Midend.Proofs.Text.Quoted

/-! # Value keys of constants

Constants are shared if their contents read the same. That tells all constants apart but for NaNs of different bits and
for array literals that hold the same.
-/

namespace Midend

namespace Constant

open Text

variable {a b : Constant} {as bs : List Constant} {r s : List Char}

/-- The constants that hold the same, whichever objects their arrays are. -/
inductive Alike : Constant → Constant → Prop where
  | same (c : Constant) : Alike c c
  | nan {d e : Double} (hd : d.isNaN = true) (he : e.isNaN = true) : Alike (.double d) (.double e)
  | array {i j : Nat} {as bs : List Constant} (h : List.Forall₂ Alike as bs) : Alike (.array i as) (.array j bs)

/-! ## Constants that hold the same read the same -/

mutual

theorem contents_eq : (a : Constant) → {b : Constant} → Alike a b → a.contents = b.contents
  | _, _, .same _ => rfl
  | _, _, .nan hd he => by rw [contents, contents, Double.text_eq_iff.mpr (.inr ⟨hd, he⟩)]
  | .array _ as, _, .array h => by rw [contents, contents, contentsList_eq as h]

theorem contentsList_eq : (as : List Constant) → {bs : List Constant} → List.Forall₂ Alike as bs →
    contentsList as = contentsList bs
  | [], _, .nil => rfl
  | a :: as, _, .cons h hs => by rw [contentsList, contentsList, contents_eq a h, contentsList_eq as hs]

end

theorem contentsList_eq_map (cs : List Constant) : contentsList cs = cs.map contents := by
  induction cs with
  | nil => rfl
  | cons c cs ih => rw [contentsList, List.map_cons, ih]

/-! ## Constants that read the same hold the same -/

def kind : Constant → String
  | null => "Null"
  | bool _ => "Bool"
  | smi _ => "Smi"
  | mint _ => "Mint"
  | double _ => "Double"
  | str _ => "Str"
  | array .. => "Array"
  | typeArguments _ => "TypeArguments"
  | type _ => "Type"

def rest : Constant → List Char
  | null => []
  | bool b => '(' :: ((if b then "true" else "false").toList ++ [')'])
  | smi v | mint v => '(' :: (v.repr.toList ++ [')'])
  | double d => '(' :: (d.text.toList ++ [')'])
  | str s => '(' :: ((quoted s).toList ++ [')'])
  | array _ es => '(' :: '[' :: ([',', ' '].intercalate ((contentsList es).map String.toList) ++ [']', ')'])
  | typeArguments cs => '(' :: '[' :: ([',', ' '].intercalate (cs.map fun c => c.text.toList) ++ [']', ')'])
  | type c => '(' :: (c.text.toList ++ [')'])

theorem toList_contents (c : Constant) : c.contents.toList = c.kind.toList ++ c.rest := by
  cases c with
  | bool b => cases b <;> rfl
  | _ => simp [contents, kind, rest, joined, classesText, toString, String.toList_intercalate, Function.comp_def]

theorem isWord_kind (c : Constant) : IsWord c.kind.toList := by
  cases c <;> rw [kind] <;> exact isWord_of_all (by decide +kernel)

theorem stops_rest (c : Constant) (hr : Stops r) : Stops (c.rest ++ r) := by
  cases c with
  | null => exact hr
  | _ => rintro _ ⟨⟩; decide

theorem head_contents (c : Constant) : ∃ x xs, c.contents.toList = x :: xs ∧ x ≠ ']' := by
  rw [toList_contents]
  cases c <;> simp [kind]

theorem head_classText (c : ClassId) : ∃ x xs, c.text.toList = x :: xs ∧ x ≠ ']' := by
  obtain ⟨x, xs, hx⟩ := List.exists_cons_of_ne_nil (classText_ne_nil c)
  refine ⟨x, xs, hx, ?_⟩
  rintro rfl
  exact absurd (isWord_classText c ']' (by simp [hx])) (by decide)

/-- The items behind the first one, each behind its separator. -/
def tail (items : List (List Char)) : List Char := items.flatMap fun t => ',' :: ' ' :: t

theorem intercalate_cons (t : List Char) (items : List (List Char)) :
    [',', ' '].intercalate (t :: items) = t ++ tail items := by
  induction items generalizing t with
  | nil => simp [tail]
  | cons u items ih => rw [List.intercalate_cons_cons, ih]; simp [tail]

theorem stops_tail (items : List (List Char)) : Stops (tail items ++ ']' :: r) := by
  cases items <;> rintro _ ⟨⟩ <;> decide

variable {α : Type} {rel : α → α → Prop} {f : α → List Char} {xs ys : List α}

/-- `f` writes the items of `xs` so that they can be told apart up to `rel`. -/
def Tells (rel : α → α → Prop) (f : α → List Char) (xs : List α) : Prop :=
  ∀ x ∈ xs, ∀ y r s, Stops r → Stops s → f x ++ r = f y ++ s → rel x y ∧ r = s

theorem tail_inj (htells : Tells rel f xs) (h : tail (xs.map f) ++ ']' :: r = tail (ys.map f) ++ ']' :: s) :
    List.Forall₂ rel xs ys ∧ r = s := by
  induction xs generalizing ys with
  | nil =>
    cases ys with
    | nil => exact ⟨.nil, (List.cons.inj h).2⟩
    | cons y ys => exact absurd (List.cons.inj h).1 (by decide)
  | cons x xs ih =>
    cases ys with
    | nil => exact absurd (List.cons.inj h).1 (by decide)
    | cons y ys =>
      have hitem : f x ++ (tail (xs.map f) ++ ']' :: r) = f y ++ (tail (ys.map f) ++ ']' :: s) := by
        simpa [tail] using h
      obtain ⟨hxy, hrest⟩ := htells x (by simp) y _ _ (stops_tail _) (stops_tail _) hitem
      obtain ⟨hall, hend⟩ := ih (fun z hz => htells z (by simp [hz])) hrest
      exact ⟨.cons hxy hall, hend⟩

theorem intercalate_inj (htells : Tells rel f xs) (hhead : ∀ x, ∃ c cs, f x = c :: cs ∧ c ≠ ']')
    (h : [',', ' '].intercalate (xs.map f) ++ ']' :: r = [',', ' '].intercalate (ys.map f) ++ ']' :: s) :
    List.Forall₂ rel xs ys ∧ r = s := by
  cases xs with
  | nil =>
    cases ys with
    | nil => exact ⟨.nil, (List.cons.inj h).2⟩
    | cons y ys =>
      obtain ⟨c, cs, hy, hne⟩ := hhead y
      rw [List.map_cons, intercalate_cons, hy] at h
      exact absurd (List.cons.inj h).1.symm hne
  | cons x xs =>
    cases ys with
    | nil =>
      obtain ⟨c, cs, hx, hne⟩ := hhead x
      rw [List.map_cons, intercalate_cons, hx] at h
      exact absurd (List.cons.inj h).1 hne
    | cons y ys =>
      rw [List.map_cons, List.map_cons, intercalate_cons, intercalate_cons, List.append_assoc, List.append_assoc] at h
      obtain ⟨hxy, hrest⟩ := htells x (by simp) y _ _ (stops_tail _) (stops_tail _) h
      obtain ⟨hall, hend⟩ := tail_inj (fun z hz => htells z (by simp [hz])) hrest
      exact ⟨.cons hxy hall, hend⟩

theorem bracketed_inj {cs ds : List Char} (hcs : IsWord cs) (hds : IsWord ds)
    (h : '(' :: (cs ++ [')']) ++ r = '(' :: (ds ++ [')']) ++ s) : cs = ds ∧ r = s := by
  have hstop (t : List Char) : Stops (')' :: t) := by
    rintro _ ⟨⟩
    decide
  rw [List.cons_append, List.cons_append, List.append_assoc, List.append_assoc, List.singleton_append,
    List.singleton_append] at h
  obtain ⟨hwords, hend⟩ := hcs.inj hds (hstop r) (hstop s) (List.cons.inj h).2
  exact ⟨hwords, (List.cons.inj hend).2⟩

def elements : Constant → List Constant
  | array _ es => es
  | _ => []

theorem sizeOf_elements_le (c : Constant) : sizeOf c.elements ≤ sizeOf c := by
  cases c <;> simp [elements]

theorem alike_of_rest (helements : Tells Alike (·.contents.toList) a.elements) (hkind : a.kind = b.kind)
    (h : a.rest ++ r = b.rest ++ s) : Alike a b ∧ r = s := by
  cases a with
  | null =>
    cases b with
    | null => exact ⟨.same _, h⟩
    | _ => simp [kind] at hkind
  | bool v =>
    cases b with
    | bool w =>
      have hword (v : Bool) : IsWord (if v then "true" else "false").toList := by
        cases v <;> exact isWord_of_all (by decide +kernel)
      obtain ⟨htext, hend⟩ := bracketed_inj (hword v) (hword w) h
      cases v <;> cases w <;> simp_all [Alike.same]
    | _ => simp [kind] at hkind
  | smi v =>
    cases b with
    | smi w =>
      obtain ⟨htext, hend⟩ := bracketed_inj (isWord_int v) (isWord_int w) h
      exact ⟨Int.repr_inj.mp (String.toList_inj.mp htext) ▸ .same _, hend⟩
    | _ => simp [kind] at hkind
  | mint v =>
    cases b with
    | mint w =>
      obtain ⟨htext, hend⟩ := bracketed_inj (isWord_int v) (isWord_int w) h
      exact ⟨Int.repr_inj.mp (String.toList_inj.mp htext) ▸ .same _, hend⟩
    | _ => simp [kind] at hkind
  | double d =>
    cases b with
    | double e =>
      obtain ⟨htext, hend⟩ := bracketed_inj (isWord_double d) (isWord_double e) h
      refine ⟨?_, hend⟩
      rcases Double.text_eq_iff.mp (String.toList_inj.mp htext) with rfl | ⟨hd, he⟩
      · exact .same _
      · exact .nan hd he
    | _ => simp [kind] at hkind
  | str t =>
    cases b with
    | str u =>
      rw [rest, rest, List.cons_append, List.cons_append, List.append_assoc, List.append_assoc] at h
      obtain ⟨rfl, hend⟩ := quoted_inj (List.cons.inj h).2
      exact ⟨.same _, (List.cons.inj hend).2⟩
    | _ => simp [kind] at hkind
  | array i as =>
    cases b with
    | array j bs =>
      have hitems : [',', ' '].intercalate (as.map (·.contents.toList)) ++ ']' :: ')' :: r =
          [',', ' '].intercalate (bs.map (·.contents.toList)) ++ ']' :: ')' :: s := by
        simpa [rest, contentsList_eq_map, Function.comp_def] using h
      obtain ⟨hall, hend⟩ := intercalate_inj helements head_contents hitems
      exact ⟨.array hall, (List.cons.inj hend).2⟩
    | _ => simp [kind] at hkind
  | typeArguments cs =>
    cases b with
    | typeArguments ds =>
      have hitems : [',', ' '].intercalate (cs.map (·.text.toList)) ++ ']' :: ')' :: r =
          [',', ' '].intercalate (ds.map (·.text.toList)) ++ ']' :: ')' :: s := by
        simpa [rest] using h
      have htells : Tells (· = ·) (·.text.toList) cs := fun c _ d r s hr hs h =>
        have hwords := (isWord_classText c).inj (isWord_classText d) hr hs h
        ⟨classText_inj (String.toList_inj.mp hwords.1), hwords.2⟩
      obtain ⟨hall, hend⟩ := intercalate_inj htells head_classText hitems
      rw [List.forall₂_eq_eq_eq] at hall
      exact ⟨hall ▸ .same _, (List.cons.inj hend).2⟩
    | _ => simp [kind] at hkind
  | type c =>
    cases b with
    | type d =>
      obtain ⟨htext, hend⟩ := bracketed_inj (isWord_classText c) (isWord_classText d) h
      exact ⟨classText_inj (String.toList_inj.mp htext) ▸ .same _, hend⟩
    | _ => simp [kind] at hkind

theorem alike_of_contents (helements : Tells Alike (·.contents.toList) a.elements) (hr : Stops r) (hs : Stops s)
    (h : a.contents.toList ++ r = b.contents.toList ++ s) : Alike a b ∧ r = s := by
  rw [toList_contents, toList_contents, List.append_assoc, List.append_assoc] at h
  obtain ⟨hkind, hrest⟩ := (isWord_kind a).inj (isWord_kind b) (stops_rest a hr) (stops_rest b hs) h
  exact alike_of_rest helements (String.toList_inj.mp hkind) hrest

theorem tells_contents (as : List Constant) : Tells Alike (·.contents.toList) as := fun a ha _ _ _ hr hs h =>
  have : sizeOf a.elements < sizeOf as := (sizeOf_elements_le a).trans_lt (List.sizeOf_lt_of_mem ha)
  alike_of_contents (tells_contents a.elements) hr hs h
termination_by sizeOf as

theorem contents_eq_iff : a.contents = b.contents ↔ Alike a b := by
  refine ⟨fun h => ?_, contents_eq a⟩
  have hnil : Stops [] := fun _ hc => absurd hc (by simp)
  exact (tells_contents [a] a (by simp) b [] [] hnil hnil (by simp [h])).1

/-! ## Equal keys and equal constants -/

theorem valueKey_constant (a : Constant) :
    (Inst.constant a).valueKey = .ok { opcode := .constant, args := [], mark := .constant a.contents } := rfl

theorem valueKey_eq_iff : (Inst.constant a).valueKey = (Inst.constant b).valueKey ↔ Alike a b := by
  rw [valueKey_constant, valueKey_constant, ← contents_eq_iff]
  simp

/-- Two array literals of one identity are one object. -/
def OneObject (a b : Constant) : Prop :=
  ∀ i as bs, a = .array i as → b = .array i bs → as = bs

inductive Confused : Constant → Constant → Prop where
  | nan {d e : Double} (hd : d.isNaN = true) (he : e.isNaN = true) (hne : d ≠ e) : Confused (.double d) (.double e)
  | array {i j : Nat} {as bs : List Constant} (hne : i ≠ j) (h : List.Forall₂ Alike as bs) :
      Confused (.array i as) (.array j bs)

theorem OneObject.eq_of_same (hone : OneObject a b) (h : (a == b) = true) : a = b := by
  obtain rfl | ⟨i, as, bs, rfl, rfl⟩ := Constant.eq_of_same h
  · rfl
  · rw [hone i as bs rfl rfl]

theorem Alike.same_or_confused (h : Alike a b) : (a == b) = true ∨ Confused a b := by
  cases h with
  | same => exact .inl (same_refl a)
  | @nan d e hd he =>
    by_cases hde : d = e
    · exact .inl (hde ▸ same_refl _)
    · exact .inr (.nan hd he hde)
  | @array i j as bs h =>
    by_cases hij : i = j
    · exact .inl (show (i == j) = true by simp [hij])
    · exact .inr (.array hij h)

theorem Confused.alike (h : Confused a b) : Alike a b := by
  cases h with
  | nan hd he => exact .nan hd he
  | array _ h => exact .array h

theorem Confused.not_same (h : Confused a b) : (a == b) = false := by
  cases h with
  | nan _ _ hne => simpa [BEq.beq, same] using hne
  | array hne _ => simpa [BEq.beq, same] using hne

/-- Constants share a value number if and only if they are equal, or are NaNs of different bits or different array
literals that hold the same. The latter are not equal (`Confused.not_same`). -/
theorem sharedKeys_iff (hone : OneObject a b) : (Inst.constant a).valueKey = (Inst.constant b).valueKey ↔
    (a == b) = true ∨ (Confused a b ∧ (a == b) = false) := by
  rw [valueKey_eq_iff]
  constructor
  · exact fun h => h.same_or_confused.imp_right fun hconfused => ⟨hconfused, hconfused.not_same⟩
  · rintro (h | ⟨h, -⟩)
    · exact hone.eq_of_same h ▸ .same a
    · exact h.alike

/-- Two literals with one NaN each, of different bits. -/
theorem nanLiterals_share : OneObject (.array 0 [.double ⟨0x7ff8000000000000⟩])
    (.array 1 [.double ⟨0x7ff8000000000001⟩]) ∧ (Inst.constant (.array 0 [.double ⟨0x7ff8000000000000⟩])).valueKey =
      (Inst.constant (.array 1 [.double ⟨0x7ff8000000000001⟩])).valueKey := by
  have hone : OneObject (.array 0 [.double ⟨0x7ff8000000000000⟩]) (.array 1 [.double ⟨0x7ff8000000000001⟩]) := by
    rintro i as bs ⟨⟩ ⟨⟩
  have hconfused : Confused (.array 0 [.double ⟨0x7ff8000000000000⟩]) (.array 1 [.double ⟨0x7ff8000000000001⟩]) :=
    .array (by decide) (.cons (.nan (by decide) (by decide)) .nil)
  exact ⟨hone, (sharedKeys_iff hone).mpr (.inr ⟨hconfused, hconfused.not_same⟩)⟩

/-- Two literals that hold the same are not the same constant. -/
theorem equalLiterals_share : (Inst.constant (.array 0 [.smi 1])).valueKey =
    (Inst.constant (.array 1 [.smi 1])).valueKey ∧ (Constant.array 0 [.smi 1] == Constant.array 1 [.smi 1]) = false :=
    ⟨rfl, rfl⟩

end Constant

end Midend
