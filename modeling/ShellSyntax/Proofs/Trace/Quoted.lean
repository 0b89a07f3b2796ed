import Mathlib.Data.List.Nodup
import ShellSyntax.Proofs.Lexeme
import ShellSyntax.Trace

/-!
# Quoted texts can be read back

No quoted form stands for two texts. The form of a character shows where it ends, whatever follows
it: a character that is not a backslash stands for itself, and behind a backslash comes one
character, or a number between braces. Numbers are told by their digits.
-/

namespace ShellSyntax.Quoted

section Digits

variable {m n : Nat}

theorem digitChar_inj (hm : m < 16) (hn : n < 16) (same : m.digitChar = n.digitChar) : m = n := by
  have distinct : ∀ a < 16, ∀ b < 16, Nat.digitChar a = Nat.digitChar b → a = b := by decide
  exact distinct m hm n hn same

theorem brace_not_mem_toDigits (n : Nat) : '\x7d' ∉ Nat.toDigits 16 n := by
  induction n using Nat.strong_induction_on with
  | _ n ih =>
    have digit (d : Nat) : '\x7d' ≠ d.digitChar := (Nat.digitChar_ne '\x7d' rfl).symm
    rcases Nat.lt_or_ge n 16 with small | large
    · simp [Nat.toDigits_of_lt_base small, digit]
    · have shorter := ih (n / 16) (by omega)
      simp [Nat.toDigits_of_base_le (by decide) large, digit, shorter]

theorem toDigits_ne_of_lt_of_le (small : m < 16) (large : 16 ≤ n) :
    Nat.toDigits 16 m ≠ Nat.toDigits 16 n := by
  rw [Nat.toDigits_of_lt_base small, Nat.toDigits_of_base_le (by decide) large]
  intro same
  have lengths := congrArg List.length same
  have more : 0 < (Nat.toDigits 16 (n / 16)).length := Nat.length_toDigits_pos
  simp only [List.length_singleton, List.length_append] at lengths
  omega

theorem toDigits_injective : Function.Injective (Nat.toDigits 16) := by
  intro m n same
  induction m using Nat.strong_induction_on generalizing n with
  | _ m ih =>
    rcases Nat.lt_or_ge m 16 with small | large <;> rcases Nat.lt_or_ge n 16 with small' | large'
    · rw [Nat.toDigits_of_lt_base small, Nat.toDigits_of_lt_base small'] at same
      exact digitChar_inj small small' (List.singleton_inj.mp same)
    · exact absurd same (toDigits_ne_of_lt_of_le small large')
    · exact absurd same.symm (toDigits_ne_of_lt_of_le small' large)
    · rw [Nat.toDigits_of_base_le (by decide) large,
        Nat.toDigits_of_base_le (by decide) large'] at same
      obtain ⟨front, last⟩ := List.append_inj' same rfl
      have quotient : m / 16 = n / 16 := ih (m / 16) (by omega) front
      have remainder : m % 16 = n % 16 :=
        digitChar_inj (Nat.mod_lt _ (by decide)) (Nat.mod_lt _ (by decide))
          (List.singleton_inj.mp last)
      omega

end Digits

def marks : List (Char × Char) :=
  [('\x22', '\x22'), ('\\', '\\'), ('\t', 't'), ('\r', 'r'), ('\n', 'n'), ('\x00', '0')]

inductive Form : Char → Text → Prop
  | marked {c mark : Char} (listed : (c, mark) ∈ marks) : Form c ['\\', mark]
  | numbered {c : Char} : Form c ('\\' :: 'u' :: '\x7b' :: (hex c ++ ['\x7d']))
  | plain {c : Char} (proper : c ≠ '\\') : Form c [c]

theorem form_escape (c : Char) : Form c (escape c) := by
  unfold escape
  split
  case h_7 proper _ _ _ _ =>
    split_ifs
    · exact .numbered
    · exact .plain proper
  all_goals exact .marked (by decide)

section Marks

variable {c d mark : Char}

theorem eq_of_marks (listed : (c, mark) ∈ marks) (listed' : (d, mark) ∈ marks) : c = d := by
  have distinct : (marks.map Prod.snd).Nodup := by decide
  exact congrArg Prod.fst (List.inj_on_of_nodup_map distinct listed listed' rfl)

theorem mark_ne (listed : (c, mark) ∈ marks) : mark ≠ 'u' := by
  have others : ∀ pair ∈ marks, pair.2 ≠ 'u' := by decide
  exact others _ listed

theorem hex_append_inj {rest rest' : Text}
    (same : hex c ++ '\x7d' :: rest = hex d ++ '\x7d' :: rest') : c = d ∧ rest = rest' := by
  have read (c : Char) (rest : Text) :
      (hex c ++ '\x7d' :: rest).takeWhile (· != '\x7d') = hex c :=
    takeWhile_body (brace_not_mem_toDigits c.toNat) rest
  have digits : hex c = hex d := by
    rw [← read c rest, same, read d rest']
  have number : c.toNat = d.toNat := toDigits_injective digits
  rw [digits] at same
  exact ⟨Char.toNat_inj.mp number, (List.cons.inj (List.append_cancel_left same)).2⟩

end Marks

section Reading

variable {c d : Char} {form form' rest rest' : Text}

theorem Form.append_inj (one : Form c form) (other : Form d form')
    (same : form ++ rest = form' ++ rest') : c = d ∧ rest = rest' := by
  cases one with
  | marked listed =>
    cases other with
    | marked listed' =>
      obtain ⟨rfl, rfl⟩ := List.cons.inj (List.cons.inj same).2
      exact ⟨eq_of_marks listed listed', rfl⟩
    | numbered =>
      obtain ⟨letter, -⟩ := List.cons.inj (List.cons.inj same).2
      exact absurd letter (mark_ne listed)
    | plain proper => exact absurd (List.cons.inj same).1.symm proper
  | numbered =>
    cases other with
    | marked listed =>
      obtain ⟨letter, -⟩ := List.cons.inj (List.cons.inj same).2
      exact absurd letter.symm (mark_ne listed)
    | numbered =>
      apply hex_append_inj
      simpa using same
    | plain proper => exact absurd (List.cons.inj same).1.symm proper
  | plain proper =>
    cases other with
    | marked listed => exact absurd (List.cons.inj same).1 proper
    | numbered => exact absurd (List.cons.inj same).1 proper
    | plain => exact List.cons.inj same

theorem Form.ne_nil (written : Form c form) : form ≠ [] := by
  cases written <;> exact List.cons_ne_nil _ _

theorem flatMap_escape_inj {u v : Text} (same : u.flatMap escape = v.flatMap escape) : u = v := by
  induction u generalizing v with
  | nil =>
    cases v with
    | nil => rfl
    | cons d v =>
      have written : escape d ++ v.flatMap escape = [] := same.symm
      exact absurd (List.append_eq_nil_iff.mp written).1 (form_escape d).ne_nil
  | cons c u ih =>
    cases v with
    | nil =>
      have written : escape c ++ u.flatMap escape = [] := same
      exact absurd (List.append_eq_nil_iff.mp written).1 (form_escape c).ne_nil
    | cons d v =>
      obtain ⟨rfl, further⟩ := (form_escape c).append_inj (form_escape d) same
      rw [ih further]

theorem encode_injective : Function.Injective encode := by
  intro u v same
  have inside := List.append_cancel_right same
  exact flatMap_escape_inj (List.cons.inj inside).2

example : encode "\n\\n\x0b\\u".toList = "\x22\\n\\\\n\\u\x7bb\x7d\\\\u\x22".toList := by decide

end Reading

end ShellSyntax.Quoted
