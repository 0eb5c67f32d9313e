import Midend.ClassId
import Midend.Text.Printable
import Midend.Proofs.Decimal.Doubles

/-! # Texts that say where they end

Numbers and class names end where a character stands that cannot be in one, a quoted text at its closing quote. So what
is written with their help can be taken apart again.
-/

namespace Midend.Text

open Decimal (append_cons_inj)

variable {as bs r s : List Char} {c d : Char}

/-! ## Words -/

def isWordChar (c : Char) : Bool := c.isAlphanum || c == '-' || c == '.'

def IsWord (as : List Char) : Prop := ∀ c ∈ as, isWordChar c = true

def Stops (r : List Char) : Prop := ∀ c ∈ r.head?, isWordChar c = false

theorem IsWord.inj (has : IsWord as) (hbs : IsWord bs) (hr : Stops r) (hs : Stops s) (h : as ++ r = bs ++ s) :
    as = bs ∧ r = s := by
  induction as generalizing bs with
  | nil =>
    cases bs with
    | nil => exact ⟨rfl, h⟩
    | cons b bs =>
      have hb := hr b (by rw [show r = b :: (bs ++ s) from h]; rfl)
      simp [hbs b (by simp)] at hb
  | cons a as ih =>
    cases bs with
    | nil =>
      have ha := hs a (by rw [show s = a :: (as ++ r) from h.symm]; rfl)
      simp [has a (by simp)] at ha
    | cons b bs =>
      obtain ⟨rfl, hrest⟩ := List.cons.inj h
      obtain ⟨rfl, rfl⟩ := ih (fun c hc => has c (by simp [hc])) (fun c hc => hbs c (by simp [hc])) hrest
      exact ⟨rfl, rfl⟩

theorem IsWord.append (has : IsWord as) (hbs : IsWord bs) : IsWord (as ++ bs) := fun c hc =>
  (List.mem_append.mp hc).elim (has c) (hbs c)

theorem isWord_of_all (h : as.all isWordChar = true) : IsWord as := List.all_eq_true.mp h

theorem isWord_of_isDigit (h : ∀ c ∈ as, c.isDigit = true) : IsWord as := fun c hc => by
  simp [isWordChar, Char.isAlphanum, h c hc]

theorem isWord_nat (n : Nat) : IsWord n.repr.toList := by
  rw [Nat.toList_repr]
  exact isWord_of_isDigit fun c hc => Nat.isDigit_of_mem_toDigits (by decide) (by decide) hc

theorem isWord_int (v : Int) : IsWord v.repr.toList := by
  cases v with
  | ofNat n => exact isWord_nat n
  | negSucc n =>
    rw [Int.repr, String.toList_append]
    exact (isWord_of_all (by decide +kernel)).append (isWord_nat _)

/-! ## Doubles -/

theorem isWord_write (s : Decimal.Style) {ds : List Char} {point : Int} (hds : ∀ c ∈ ds, c.isDigit = true) :
    IsWord (s.write ds point).toList := by
  have hdigits := isWord_of_isDigit hds
  have hzeros (n : Nat) : IsWord (List.replicate n '0') := isWord_of_isDigit Decimal.isDigit_of_mem_zeros
  have hpart {cs : List Char} (h : cs ⊆ ds) : IsWord cs := isWord_of_isDigit fun c hc => hds c (h hc)
  have hpoint : IsWord ['.'] := isWord_of_all (by decide)
  rw [Decimal.write_eq]
  split
  · split
    · exact ((isWord_of_all (by decide) : IsWord ['0', '.'])).append ((hzeros _).append hdigits)
    · split
      · exact (hpart (List.take_subset _ _)).append (hpoint.append (hpart (List.drop_subset _ _)))
      · exact (hdigits.append (hzeros _)).append (isWord_of_all (by decide))
  · refine ((hpart (List.take_subset _ _)).append ?_).append
      ((isWord_of_all (by decide) : IsWord ['e']).append (isWord_int _))
    split
    · exact isWord_of_all rfl
    · exact hpoint.append (hpart (List.drop_subset _ _))

theorem isWord_double (d : Double) : IsWord d.text.toList := by
  cases hnan : d.isNaN with
  | true =>
    rw [Double.text_of_isNaN hnan]
    exact isWord_of_all (by decide +kernel)
  | false =>
    rw [Double.text_of_not_isNaN hnan]
    refine .append ?_ ?_
    · split <;> exact isWord_of_all (by decide)
    · unfold Double.body
      split
      · exact isWord_of_all (by decide +kernel)
      · split
        · exact isWord_of_all (by decide +kernel)
        · exact isWord_write _ (Decimal.isDigit_of_mem_significant _)

/-! ## Class names -/

theorem classText_of_some {c : ClassId} {name : String} (h : ClassId.coreNames[c.number]? = some name) :
    c.text = name := by
  rw [ClassId.text, h, Option.getD_some]

theorem classText_of_none {c : ClassId} (h : ClassId.coreNames[c.number]? = none) :
    c.text.toList = "cid".toList ++ c.number.repr.toList := by
  rw [ClassId.text, h, Option.getD_none]
  simp [toString]

theorem isWord_classText (c : ClassId) : IsWord c.text.toList := by
  cases h : ClassId.coreNames[c.number]? with
  | some name =>
    have hnames : ClassId.coreNames.all (fun name => name.toList.all isWordChar) = true := by decide +kernel
    rw [classText_of_some h]
    exact isWord_of_all (List.all_eq_true.mp hnames name (List.mem_of_getElem? h))
  | none =>
    rw [classText_of_none h]
    exact (isWord_of_all (by decide +kernel)).append (isWord_nat _)

theorem classText_ne_nil (c : ClassId) : c.text.toList ≠ [] := by
  cases h : ClassId.coreNames[c.number]? with
  | some name =>
    have hnames : ClassId.coreNames.all (fun name => !name.toList.isEmpty) = true := by decide +kernel
    rw [classText_of_some h]
    simpa using List.all_eq_true.mp hnames name (List.mem_of_getElem? h)
  | none =>
    rw [classText_of_none h]
    exact List.append_ne_nil_of_left_ne_nil (by simp) _

theorem classText_ne {c d : ClassId} {name : String} (hc : ClassId.coreNames[c.number]? = some name)
    (hd : ClassId.coreNames[d.number]? = none) : c.text ≠ d.text := by
  have hnames : ClassId.coreNames.all (fun name => name.toList.take 3 != "cid".toList) = true := by decide +kernel
  have hname := List.all_eq_true.mp hnames name (List.mem_of_getElem? hc)
  intro h
  have htake := congrArg (List.take 3) (classText_of_none hd)
  rw [← h, classText_of_some hc] at htake
  rw [htake] at hname
  simp at hname

theorem classText_inj {c d : ClassId} (h : c.text = d.text) : c = d := by
  have hnumber : c.number = d.number := by
    cases hc : ClassId.coreNames[c.number]? with
    | some name =>
      cases hd : ClassId.coreNames[d.number]? with
      | some name' =>
        have hnodup : ClassId.coreNames.Nodup := by decide +kernel
        rw [classText_of_some hc, classText_of_some hd] at h
        obtain ⟨hlt, rfl⟩ := List.getElem?_eq_some_iff.mp hc
        obtain ⟨hlt', rfl⟩ := List.getElem?_eq_some_iff.mp hd
        exact hnodup.getElem_inj_iff.mp h
      | none => exact absurd h (classText_ne hc hd)
    | none =>
      cases hd : ClassId.coreNames[d.number]? with
      | some name => exact absurd h.symm (classText_ne hd hc)
      | none =>
        have htext := congrArg String.toList h
        rw [classText_of_none hc, classText_of_none hd] at htext
        exact Int.ofNat_inj.mp (Int.repr_inj.mp (String.toList_inj.mp (List.append_cancel_left htext)))
  cases c
  cases d
  exact congrArg ClassId.mk hnumber

/-! ## Hexadecimal numbers -/

theorem digitChar_inj : ∀ m < 16, ∀ n < 16, m.digitChar = n.digitChar → m = n := by decide +kernel

theorem toDigits_inj {m n : Nat} (h : Nat.toDigits 16 m = Nat.toDigits 16 n) : m = n := by
  induction m using Nat.strongRecOn generalizing n with
  | _ m ih =>
    have hlength (k : Nat) : (Nat.toDigits 16 k).length ≠ 0 := (Nat.length_toDigits_pos).ne'
    by_cases hm : m < 16
    · rw [Nat.toDigits_of_lt_base hm] at h
      by_cases hn : n < 16
      · rw [Nat.toDigits_of_lt_base hn, List.singleton_inj] at h
        exact digitChar_inj m hm n hn h
      · rw [Nat.toDigits_of_base_le (by decide) (by omega)] at h
        have := congrArg List.length h
        simp [hlength] at this
    · rw [Nat.toDigits_of_base_le (by decide) (by omega)] at h
      by_cases hn : n < 16
      · rw [Nat.toDigits_of_lt_base hn] at h
        have := congrArg List.length h
        simp [hlength] at this
      · rw [Nat.toDigits_of_base_le (n := n) (by decide) (by omega)] at h
        obtain ⟨hfront, hlast⟩ := List.append_inj' h rfl
        have hdiv := ih (m / 16) (by omega) hfront
        have hmod := digitChar_inj _ (Nat.mod_lt m (by decide)) _ (Nat.mod_lt n (by decide))
          (List.singleton_inj.mp hlast)
        omega

theorem isWord_hexDigits (n : Nat) : IsWord (Nat.toDigits 16 n) := by
  have hdigit : ∀ m < 16, isWordChar m.digitChar = true := by decide +kernel
  induction n using Nat.strongRecOn with
  | _ n ih =>
    by_cases hn : n < 16
    · rw [Nat.toDigits_of_lt_base hn]
      exact isWord_of_all (by simpa using hdigit n hn)
    · rw [Nat.toDigits_of_base_le (by decide) (by omega)]
      exact (ih (n / 16) (by omega)).append (isWord_of_all (by simpa using hdigit _ (Nat.mod_lt n (by decide))))

/-! ## Quoted texts -/

/-- The characters with an escape of their own, and the letters that stand for them. -/
def letters : List (Char × Char) :=
  [('"', '"'), ('\\', '\\'), ('\n', 'n'), ('\t', 't'), ('\r', 'r'), (Char.ofNat 0, '0')]

inductive Escapes (c : Char) : List Char → Prop where
  | plain (hbackslash : c ≠ '\\') (hquote : c ≠ '"') : Escapes c [c]
  | named (k : Char) (hk : (c, k) ∈ letters) : Escapes c ['\\', k]
  | code : Escapes c ('\\' :: 'u' :: '\x7b' :: (Nat.toDigits 16 c.toNat ++ ['\x7d']))

theorem escapes_escapeChar (c : Char) : Escapes c (escapeChar c).toList := by
  unfold escapeChar
  split
  case isTrue h => exact h ▸ .named '"' (by decide)
  case isFalse hquote =>
    split
    case isTrue h => exact h ▸ .named '\\' (by decide)
    case isFalse hbackslash =>
      split
      case isTrue h => exact h ▸ .named 'n' (by decide)
      case isFalse =>
        split
        case isTrue h => exact h ▸ .named 't' (by decide)
        case isFalse =>
          split
          case isTrue h => exact h ▸ .named 'r' (by decide)
          case isFalse =>
            split
            case isTrue h => exact h ▸ .named '0' (by decide)
            case isFalse =>
              split
              · rw [Char.toString, String.toList_singleton]
                exact .plain hbackslash hquote
              · have hcode : (toString "\\u\x7b" ++ toString (hexDigits c.toNat) ++ toString "\x7d").toList =
                    '\\' :: 'u' :: '\x7b' :: (Nat.toDigits 16 c.toNat ++ ['\x7d']) := by
                  simp [toString, hexDigits]
                exact hcode ▸ .code

theorem letters_inj : ∀ p ∈ letters, ∀ q ∈ letters, p.2 = q.2 → p.1 = q.1 := by decide +kernel

theorem letters_ne : ∀ p ∈ letters, p.2 ≠ 'u' := by decide +kernel

theorem Escapes.head_ne {as : List Char} (h : Escapes c as) : ∃ a rest, as = a :: rest ∧ a ≠ '"' := by
  cases h with
  | plain _ hquote => exact ⟨c, [], rfl, hquote⟩
  | named k => exact ⟨'\\', [k], rfl, by decide⟩
  | code => exact ⟨'\\', _, rfl, by decide⟩

theorem Escapes.inj {as bs : List Char} (hc : Escapes c as) (hd : Escapes d bs) (h : as ++ r = bs ++ s) :
    c = d ∧ r = s := by
  cases hc with
  | plain hbackslash _ =>
    cases hd with
    | plain => exact List.cons.inj h
    | named => exact absurd (List.cons.inj h).1 hbackslash
    | code => exact absurd (List.cons.inj h).1 hbackslash
  | named k hk =>
    cases hd with
    | plain hbackslash _ => exact absurd (List.cons.inj h).1.symm hbackslash
    | named l hl =>
      obtain ⟨rfl, hrest⟩ := List.cons.inj (List.cons.inj h).2
      exact ⟨letters_inj _ hk _ hl rfl, hrest⟩
    | code =>
      exact absurd (List.cons.inj (List.cons.inj h).2).1 (letters_ne _ hk)
  | code =>
    cases hd with
    | plain hbackslash _ => exact absurd (List.cons.inj h).1.symm hbackslash
    | named l hl =>
      exact absurd (List.cons.inj (List.cons.inj h).2).1.symm (letters_ne _ hl)
    | code =>
      have hrest : Nat.toDigits 16 c.toNat ++ '\x7d' :: r = Nat.toDigits 16 d.toNat ++ '\x7d' :: s := by
        simpa using h
      have hstop (t : List Char) : Stops ('\x7d' :: t) := by
        rintro _ ⟨⟩
        decide
      obtain ⟨hdigits, htail⟩ := (isWord_hexDigits _).inj (isWord_hexDigits _) (hstop r) (hstop s) hrest
      exact ⟨Char.toNat_inj.mp (toDigits_inj hdigits), (List.cons.inj htail).2⟩

theorem escaped_inj {cs ds : List Char} (h : (cs.map escapeChar).flatMap String.toList ++ '"' :: r =
    (ds.map escapeChar).flatMap String.toList ++ '"' :: s) : cs = ds ∧ r = s := by
  induction cs generalizing ds with
  | nil =>
    cases ds with
    | nil => exact ⟨rfl, (List.cons.inj h).2⟩
    | cons d ds =>
      obtain ⟨a, rest, ha, hne⟩ := (escapes_escapeChar d).head_ne
      rw [List.map_cons, List.flatMap_cons, ha] at h
      exact absurd (List.cons.inj h).1.symm hne
  | cons c cs ih =>
    cases ds with
    | nil =>
      obtain ⟨a, rest, ha, hne⟩ := (escapes_escapeChar c).head_ne
      rw [List.map_cons, List.flatMap_cons, ha] at h
      exact absurd (List.cons.inj h).1 hne
    | cons d ds =>
      rw [List.map_cons, List.map_cons, List.flatMap_cons, List.flatMap_cons, List.append_assoc, List.append_assoc] at h
      obtain ⟨rfl, hrest⟩ := (escapes_escapeChar c).inj (escapes_escapeChar d) h
      obtain ⟨rfl, htail⟩ := ih hrest
      exact ⟨rfl, htail⟩

theorem toList_quoted (t : String) :
    (quoted t).toList = '"' :: ((t.toList.map escapeChar).flatMap String.toList ++ ['"']) := by
  simp [quoted]

/-- A quoted text ends at its closing quote, and no two texts are quoted alike. -/
theorem quoted_inj {t u : String} (h : (quoted t).toList ++ r = (quoted u).toList ++ s) : t = u ∧ r = s := by
  rw [toList_quoted, toList_quoted, List.cons_append, List.cons_append, List.append_assoc, List.append_assoc,
    List.singleton_append, List.singleton_append] at h
  obtain ⟨htext, hrest⟩ := escaped_inj (List.cons.inj h).2
  exact ⟨String.toList_inj.mp htext, hrest⟩

end Midend.Text
