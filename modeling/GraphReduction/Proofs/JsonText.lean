import Mathlib.Data.List.DropRight
import GraphReduction.Json.Printer
import GraphReduction.Json.Reader
namespace GraphReduction.Json

def HexDigit (c : Char) (n : Nat) : Prop :=
  n < 16 ∧ (c = Nat.digitChar n ∨ c = (Nat.digitChar n).toUpper)

def shortEscapes : List (Char × Char) :=
  [('"', '"'), ('\\', '\\'), ('/', '/'), ('b', '\x08'), ('f', '\x0c'), ('n', '\n'), ('r', '\r'),
    ('t', '\t')]

inductive SpellsPieces : List Piece → List Char → Prop
  | nil : SpellsPieces [] []
  | plain {c ps t} : 32 ≤ c.toNat → c ≠ '"' → c ≠ '\\' → SpellsPieces ps t →
      SpellsPieces (.char c :: ps) (c :: t)
  | short {e c ps t} : (e, c) ∈ shortEscapes → SpellsPieces ps t →
      SpellsPieces (.char c :: ps) ('\\' :: e :: t)
  | unit {a b c d i j k l ps t} : HexDigit a i → HexDigit b j → HexDigit c k → HexDigit d l →
      SpellsPieces ps t →
      SpellsPieces (.unit (((i * 16 + j) * 16 + k) * 16 + l) :: ps)
        ('\\' :: 'u' :: a :: b :: c :: d :: t)

inductive Decodes : List Piece → List Char → Prop
  | nil : Decodes [] []
  | char {ps cs} (c) : Decodes ps cs → Decodes (.char c :: ps) (c :: cs)
  | unit {ps cs} {c : Char} : c.toNat < 0x10000 → Decodes ps cs →
      Decodes (.unit c.toNat :: ps) (c :: cs)
  | pair {ps cs} {c : Char} : 0x10000 ≤ c.toNat → Decodes ps cs →
      Decodes (.unit (0xd800 + (c.toNat - 0x10000) / 0x400) ::
        .unit (0xdc00 + (c.toNat - 0x10000) % 0x400) :: ps) (c :: cs)

def SpellsString (s : String) (t : List Char) : Prop :=
  ∃ ps, SpellsPieces ps t ∧ Decodes ps s.toList

/-- A string token that stands for no text, a half of a surrogate pair being alone in it. -/
def SpellsUnpaired (t : List Char) : Prop :=
  ∃ ps, SpellsPieces ps t ∧ ∀ cs, ¬ Decodes ps cs

def Digits (ds : List Char) : Prop := ds ≠ [] ∧ ∀ c ∈ ds, c.isDigit

inductive Fraction : List Char → Prop
  | absent : Fraction []
  | present {ds} : Digits ds → Fraction ('.' :: ds)

inductive Exponent : List Char → Prop
  | absent : Exponent []
  | present {e sign ds} : e = 'e' ∨ e = 'E' → sign = [] ∨ sign = ['+'] ∨ sign = ['-'] → Digits ds →
      Exponent (e :: (sign ++ ds))

def SpellsTail (t : List Char) : Prop := ∃ f e, t = f ++ e ∧ Fraction f ∧ Exponent e

def Blanks (w : List Char) : Prop := ∀ c ∈ w, isBlank c

mutual

inductive Spells : Json → List Char → Prop
  | null : Spells .null ['n', 'u', 'l', 'l']
  | true : Spells (.bool true) ['t', 'r', 'u', 'e']
  | false : Spells (.bool false) ['f', 'a', 'l', 's', 'e']
  | number {n : JsonNumber} : SpellsTail n.tail.toList → Spells (.number n) n.text.toList
  | string {s t} : SpellsString s t → Spells (.string s) ('"' :: (t ++ ['"']))
  | unpaired {t} : SpellsUnpaired t → Spells .unpaired ('"' :: (t ++ ['"']))
  | noElements {w} : Blanks w → Spells (.array []) ('[' :: (w ++ [']']))
  | array {js t} : SpellsElements js t → Spells (.array js) ('[' :: (t ++ [']']))
  | noMembers {w} : Blanks w → Spells (.object []) ('\x7b' :: (w ++ ['\x7d']))
  | object {ms t} : SpellsMembers ms t → Spells (.object ms) ('\x7b' :: (t ++ ['\x7d']))

inductive SpellsElement : Json → List Char → Prop
  | mk {j t before after} : Blanks before → Spells j t → Blanks after →
      SpellsElement j (before ++ (t ++ after))

inductive SpellsElements : List Json → List Char → Prop
  | last {j t} : SpellsElement j t → SpellsElements [j] t
  | more {j t js ts} : SpellsElement j t → SpellsElements js ts →
      SpellsElements (j :: js) (t ++ ',' :: ts)

inductive SpellsMember : String × Json → List Char → Prop
  | mk {key k j t before after} : Blanks before → SpellsString key k → Blanks after →
      SpellsElement j t → SpellsMember (key, j) (before ++ '"' :: (k ++ '"' :: (after ++ ':' :: t)))

inductive SpellsMembers : List (String × Json) → List Char → Prop
  | last {m t} : SpellsMember m t → SpellsMembers [m] t
  | more {m t ms ts} : SpellsMember m t → SpellsMembers ms ts →
      SpellsMembers (m :: ms) (t ++ ',' :: ts)

end

section Strings

theorem HexDigit.value {c : Char} {n : Nat} (h : HexDigit c n) : hexValue? c = some n := by
  have hall : ∀ n < 16, hexValue? (Nat.digitChar n) = some n ∧
      hexValue? (Nat.digitChar n).toUpper = some n := by decide
  obtain ⟨hn, rfl | rfl⟩ := h
  · exact (hall n hn).1
  · exact (hall n hn).2

theorem simpleEscape?_of_mem {e c : Char} (h : (e, c) ∈ shortEscapes) :
    simpleEscape? e = some c ∧ e ≠ 'u' := by
  have hall : ∀ x ∈ shortEscapes, simpleEscape? x.1 = some x.2 ∧ x.1 ≠ 'u' := by decide
  exact hall _ h

theorem SpellsPieces.read {ps : List Piece} {t : List Char} (h : SpellsPieces ps t)
    (rest : List Char) : readPieces (t ++ '"' :: rest) = some (ps, rest) := by
  induction h with
  | nil => rfl
  | @plain c ps t hc hquote hslash _ ih =>
    have hlow : ¬ c.toNat < 32 := by omega
    simp [readPieces, hslash, hlow, ih]
  | short he _ ih =>
    obtain ⟨hvalue, hu⟩ := simpleEscape?_of_mem he
    simp [readPieces, hu, hvalue, ih]
  | unit ha hb hc hd _ ih =>
    simp [readPieces, unit?, ha.value, hb.value, hc.value, hd.value, ih]

theorem isHighHalf_iff {n : Nat} : isHighHalf n = true ↔ 0xd800 ≤ n ∧ n < 0xdc00 := by
  simp [isHighHalf]

theorem isLowHalf_iff {n : Nat} : isLowHalf n = true ↔ 0xdc00 ≤ n ∧ n < 0xe000 := by
  simp [isLowHalf]

theorem Decodes.join {ps : List Piece} {cs : List Char} (h : Decodes ps cs) :
    joinPieces ps = some cs := by
  induction h with
  | nil => rfl
  | char c _ ih => simp [joinPieces, ih]
  | @unit ps cs c hc _ ih =>
    have hvalid : c.toNat < 0xd800 ∨ 0xdfff < c.toNat ∧ c.toNat < 0x110000 := c.valid
    have hhigh : ¬ isHighHalf c.toNat := by
      rw [isHighHalf_iff]
      omega
    have hlow : ¬ isLowHalf c.toNat := by
      rw [isLowHalf_iff]
      omega
    rw [joinPieces.eq_def]
    simp only [if_neg hhigh, if_neg hlow, ih, Option.map_some, Char.ofNat_toNat]
  | @pair ps cs c hc _ ih =>
    have hvalid : c.toNat < 0xd800 ∨ 0xdfff < c.toNat ∧ c.toNat < 0x110000 := c.valid
    have hhigh : isHighHalf (0xd800 + (c.toNat - 0x10000) / 0x400) := by
      rw [isHighHalf_iff]
      omega
    have hlow : isLowHalf (0xdc00 + (c.toNat - 0x10000) % 0x400) := by
      rw [isLowHalf_iff]
      omega
    have hvalue : 0x10000 + (0xd800 + (c.toNat - 0x10000) / 0x400 - 0xd800) * 0x400 +
        (0xdc00 + (c.toNat - 0x10000) % 0x400 - 0xdc00) = c.toNat := by
      omega
    rw [joinPieces.eq_def]
    simp only [if_pos hhigh, if_pos hlow, hvalue, ih, Option.map_some, Char.ofNat_toNat]

theorem exists_char {n : Nat} (h : n < 0xd800 ∨ 0xdfff < n ∧ n < 0x110000) :
    ∃ c : Char, c.toNat = n :=
  ⟨Char.ofNatAux n h, rfl⟩

theorem decodes_of_join {ps : List Piece} {cs : List Char} (hps : ∀ n, .unit n ∈ ps → n < 0x10000)
    (h : joinPieces ps = some cs) : Decodes ps cs := by
  fun_induction joinPieces ps generalizing cs with
  | case1 =>
    cases h
    exact .nil
  | case2 c rest ih =>
    obtain ⟨cs', hrest, rfl⟩ := Option.map_eq_some_iff.mp h
    exact .char c (ih (fun n hn => hps n (List.mem_cons_of_mem _ hn)) hrest)
  | case3 n hhigh m rest hlow ih =>
    obtain ⟨cs', hrest, rfl⟩ := Option.map_eq_some_iff.mp h
    have hdecodes := ih (fun n hn => hps n (by simp [hn])) hrest
    rw [isHighHalf_iff] at hhigh
    rw [isLowHalf_iff] at hlow
    obtain ⟨c, hc⟩ : ∃ c : Char, c.toNat = 0x10000 + (n - 0xd800) * 0x400 + (m - 0xdc00) :=
      exists_char (by omega)
    have hn : n = 0xd800 + (c.toNat - 0x10000) / 0x400 := by omega
    have hm : m = 0xdc00 + (c.toNat - 0x10000) % 0x400 := by omega
    rw [← hc, Char.ofNat_toNat, hn, hm]
    exact .pair (by omega) hdecodes
  | case4 => cases h
  | case5 => cases h
  | case6 => cases h
  | case7 n rest hhigh hlow ih =>
    obtain ⟨cs', hrest, rfl⟩ := Option.map_eq_some_iff.mp h
    have hdecodes := ih (fun n hn => hps n (by simp [hn])) hrest
    have hn := hps n (by simp)
    rw [isHighHalf_iff] at hhigh
    rw [isLowHalf_iff] at hlow
    obtain ⟨c, rfl⟩ : ∃ c : Char, c.toNat = n := exists_char (by omega)
    rw [Char.ofNat_toNat]
    exact .unit hn hdecodes

theorem SpellsPieces.unit_lt {ps : List Piece} {t : List Char} (h : SpellsPieces ps t) :
    ∀ n, .unit n ∈ ps → n < 0x10000 := by
  induction h with
  | nil => simp
  | plain _ _ _ _ ih => simpa using ih
  | short _ _ ih => simpa using ih
  | unit ha hb hc hd _ ih =>
    intro n hn
    rcases List.mem_cons.mp hn with hn | hn
    · obtain ⟨hi, -⟩ := ha
      obtain ⟨hj, -⟩ := hb
      obtain ⟨hk, -⟩ := hc
      obtain ⟨hl, -⟩ := hd
      injection hn with hn
      omega
    · exact ih n hn

theorem SpellsString.read {s : String} {t : List Char} (h : SpellsString s t) (rest : List Char) :
    readString (t ++ '"' :: rest) = some (some s, rest) := by
  obtain ⟨ps, hpieces, hdecodes⟩ := h
  simp [readString, hpieces.read, hdecodes.join]

theorem SpellsUnpaired.read {t : List Char} (h : SpellsUnpaired t) (rest : List Char) :
    readString (t ++ '"' :: rest) = some (none, rest) := by
  obtain ⟨ps, hpieces, hnone⟩ := h
  have hjoin : joinPieces ps = none := by
    apply Option.eq_none_iff_forall_ne_some.mpr
    exact fun cs hcs => hnone cs (decodes_of_join hpieces.unit_lt hcs)
  simp [readString, hpieces.read, hjoin]

end Strings

section Numbers

def Stops (t : List Char) : Prop := ∀ c ∈ t.head?, ¬ c.isDigit ∧ c ≠ '.' ∧ c ≠ 'e' ∧ c ≠ 'E'

theorem Digits.read {ds rest : List Char} (h : Digits ds) (hrest : ∀ c ∈ rest.head?, ¬ c.isDigit) :
    readDigits (ds ++ rest) = some (ds, rest) := by
  have htake : rest.takeWhile Char.isDigit = [] ∧ rest.dropWhile Char.isDigit = rest := by
    cases rest with
    | nil => exact ⟨rfl, rfl⟩
    | cons c rest =>
      have hc : ¬ c.isDigit := hrest c rfl
      simp [hc]
  obtain ⟨hne, hdigits⟩ := h
  rw [readDigits, List.takeWhile_append_of_pos hdigits, List.dropWhile_append_of_pos hdigits,
    htake.1, htake.2, List.append_nil]
  cases ds with
  | nil => exact absurd rfl hne
  | cons d ds => rfl

theorem ne_sign_of_isDigit {c : Char} (h : c.isDigit) : c ≠ '+' ∧ c ≠ '-' := by
  constructor
  · rintro rfl
    exact absurd h (by decide)
  · rintro rfl
    exact absurd h (by decide)

theorem Exponent.read {e rest : List Char} (h : Exponent e) (hrest : Stops rest) :
    readExponent (e ++ rest) = some (e, rest) := by
  cases h with
  | absent =>
    cases rest with
    | nil => rfl
    | cons c rest =>
      obtain ⟨-, -, he, hE⟩ := hrest c rfl
      simp [readExponent, he, hE]
  | @present e sign ds he hsign hds =>
    have hread := hds.read fun c hc => (hrest c hc).1
    have hreadSign : readSign (sign ++ (ds ++ rest)) = (sign, ds ++ rest) := by
      rcases hsign with rfl | rfl | rfl
      · obtain ⟨hne, hdigits⟩ := hds
        cases ds with
        | nil => exact absurd rfl hne
        | cons d ds =>
          obtain ⟨hplus, hminus⟩ := ne_sign_of_isDigit (hdigits d List.mem_cons_self)
          simp [readSign, hplus, hminus]
      · rfl
      · rfl
    simp [readExponent, he, hreadSign, hread]

theorem Exponent.stops {e rest : List Char} (h : Exponent e) (hrest : Stops rest) :
    ∀ c ∈ (e ++ rest).head?, ¬ c.isDigit ∧ c ≠ '.' := by
  cases h with
  | absent => exact fun c hc => ⟨(hrest c hc).1, (hrest c hc).2.1⟩
  | present he _ _ =>
    rintro c hc
    cases Option.mem_some_iff.mp hc
    rcases he with rfl | rfl <;> decide

theorem Fraction.read {f rest : List Char} (h : Fraction f)
    (hrest : ∀ c ∈ rest.head?, ¬ c.isDigit ∧ c ≠ '.') :
    readFraction (f ++ rest) = some (f, rest) := by
  cases h with
  | absent =>
    cases rest with
    | nil => rfl
    | cons c rest =>
      have hc := (hrest c rfl).2
      simp [readFraction, hc]
  | present hds => simp [readFraction, hds.read fun c hc => (hrest c hc).1]

theorem SpellsTail.stops {t rest : List Char} (h : SpellsTail t) (hrest : Stops rest) :
    ∀ c ∈ (t ++ rest).head?, ¬ c.isDigit := by
  obtain ⟨f, e, rfl, hf, he⟩ := h
  rw [List.append_assoc]
  cases hf with
  | absent => exact fun c hc => (he.stops hrest c hc).1
  | present _ =>
    rintro c hc
    cases Option.mem_some_iff.mp hc
    decide

theorem digits_toDigits (n : Nat) : Digits (Nat.toDigits 10 n) :=
  ⟨Nat.toDigits_ne_nil, fun _ => Nat.isDigit_of_mem_toDigits (by decide) (by decide)⟩

theorem toDigits_of_head?_eq_zero {n : Nat} (h : (Nat.toDigits 10 n).head? = some '0') :
    Nat.toDigits 10 n = ['0'] := by
  induction n using Nat.strongRecOn with
  | ind n ih =>
    rcases Nat.lt_or_ge n 10 with hn | hn
    · rw [Nat.toDigits_of_lt_base hn] at h ⊢
      simpa using h
    · rw [Nat.toDigits_of_base_le (by decide) hn] at h
      rw [List.head?_append_of_ne_nil _ Nat.toDigits_ne_nil] at h
      have hdiv := ih (n / 10) (by omega) h
      have hvalue := congrArg (Nat.ofDigitChars 10 · 0) hdiv
      simp only [Nat.ofDigitChars_ten_toDigits] at hvalue
      have hzero : Nat.ofDigitChars 10 ['0'] 0 = 0 := by decide
      omega

theorem readMagnitude_digits {whole : Nat} {tail : String} (h : SpellsTail tail.toList)
    {rest : List Char} (hrest : Stops rest) (negative : Bool) :
    readMagnitude negative (Nat.toDigits 10 whole ++ (tail.toList ++ rest)) =
      some (⟨negative, whole, tail⟩, rest) := by
  have hdigits := (digits_toDigits whole).read (h.stops hrest)
  have hzero : ¬ ((Nat.toDigits 10 whole).head? = some '0' ∧
      (Nat.toDigits 10 whole).length ≠ 1) := by
    rintro ⟨hhead, hlength⟩
    rw [toDigits_of_head?_eq_zero hhead] at hlength
    exact hlength rfl
  have hvalue : digitsValue (Nat.toDigits 10 whole) = whole :=
    Nat.ofDigitChars_eq_foldl.symm.trans Nat.ofDigitChars_ten_toDigits
  obtain ⟨f, e, htail, hf, he⟩ := h
  have hfraction := hf.read (he.stops hrest)
  have htext : String.ofList (f ++ e) = tail := by rw [← htail, String.ofList_toList]
  rw [readMagnitude, hdigits]
  simp only [Option.bind_eq_bind, Option.bind_some, if_neg hzero, htail, List.append_assoc,
    hfraction, he.read hrest, hvalue, htext]
  rfl

theorem readNumber_text {n : JsonNumber} (h : SpellsTail n.tail.toList) {rest : List Char}
    (hrest : Stops rest) : readNumber (n.text.toList ++ rest) = some (n, rest) := by
  obtain ⟨negative, whole, tail⟩ := n
  have hread : readMagnitude negative (Nat.toDigits 10 whole ++ (tail.toList ++ rest)) = _ :=
    readMagnitude_digits h hrest negative
  cases negative with
  | true => simpa [JsonNumber.text, readNumber, Nat.repr_eq_ofList_toDigits] using hread
  | false =>
    obtain ⟨hne, hdigits⟩ := digits_toDigits whole
    simp only [JsonNumber.text, Nat.repr_eq_ofList_toDigits, Bool.false_eq_true, if_false,
      String.empty_append, String.toList_append, String.toList_ofList, List.append_assoc]
    cases hds : Nat.toDigits 10 whole with
    | nil => exact absurd hds hne
    | cons d ds =>
      obtain ⟨-, hminus⟩ := ne_sign_of_isDigit (hdigits d (by simp [hds]))
      rw [hds] at hread
      simpa [readNumber, hminus] using hread

end Numbers

section Blanks

theorem skipBlanks_append {w : List Char} (h : Blanks w) (cs : List Char) :
    skipBlanks (w ++ cs) = skipBlanks cs :=
  List.dropWhile_append_of_pos h

theorem skipBlanks_cons {c : Char} (h : ¬ isBlank c) (cs : List Char) :
    skipBlanks (c :: cs) = c :: cs :=
  List.dropWhile_cons_of_neg h

@[simp] theorem skipBlanks_skipBlanks (cs : List Char) :
    skipBlanks (skipBlanks cs) = skipBlanks cs :=
  List.dropWhile_idempotent _ _

theorem readValue_skipBlanks (fuel : Nat) (cs : List Char) :
    readValue fuel (skipBlanks cs) = readValue fuel cs := by
  cases fuel with
  | zero => rfl
  | succ fuel => rw [readValue, readValue, skipBlanks_skipBlanks]

theorem readElements_skipBlanks (fuel : Nat) (cs : List Char) :
    readElements fuel (skipBlanks cs) = readElements fuel cs := by
  cases fuel with
  | zero => rfl
  | succ fuel => rw [readElements, readElements, readValue_skipBlanks]

theorem readMembers_skipBlanks (fuel : Nat) (cs : List Char) :
    readMembers fuel (skipBlanks cs) = readMembers fuel cs := by
  cases fuel with
  | zero => rfl
  | succ fuel => rw [readMembers, readMembers, skipBlanks_skipBlanks]

end Blanks

def Ends (t : List Char) : Prop := ∀ c ∈ t.head?, isBlank c ∨ c = ',' ∨ c = ']' ∨ c = '\x7d'

theorem Ends.stops {t : List Char} (h : Ends t) : Stops t := by
  intro c hc
  rcases h c hc with hblank | rfl | rfl | rfl
  · simp only [isBlank, decide_eq_true_eq] at hblank
    rcases hblank with rfl | rfl | rfl | rfl <;> decide
  all_goals decide

theorem text_head (n : JsonNumber) :
    ∃ c cs, n.text.toList = c :: cs ∧ (c = '-' ∨ c.isDigit) := by
  obtain ⟨negative, whole, tail⟩ := n
  obtain ⟨hne, hdigits⟩ := digits_toDigits whole
  simp only [JsonNumber.text, Nat.repr_eq_ofList_toDigits]
  cases negative with
  | true => exact ⟨'-', Nat.toDigits 10 whole ++ tail.toList, by simp, .inl rfl⟩
  | false =>
    cases hds : Nat.toDigits 10 whole with
    | nil => exact absurd hds hne
    | cons d ds => exact ⟨d, ds ++ tail.toList, by simp, .inr (hdigits d (by simp [hds]))⟩

theorem not_special_of_head {c : Char} (h : c = '-' ∨ c.isDigit) :
    ∀ special ∈ ['\x7b', '[', '"', 'n', 't', 'f', ' ', '\n', '\t', '\r', ']'], c ≠ special := by
  rintro special hspecial rfl
  rcases h with rfl | h
  · exact absurd hspecial (by decide)
  · simp only [List.mem_cons, List.not_mem_nil, or_false] at hspecial
    rcases hspecial with rfl | rfl | rfl | rfl | rfl | rfl | rfl | rfl | rfl | rfl | rfl <;>
      exact absurd h (by decide)

theorem Spells.head {j : Json} {t : List Char} (h : Spells j t) :
    ∃ c cs, t = c :: cs ∧ ¬ isBlank c ∧ c ≠ ']' := by
  cases h with
  | @number n _ =>
    obtain ⟨c, cs, heq, hc⟩ := text_head n
    have hspecial := not_special_of_head hc
    exact ⟨c, cs, heq, by simp [isBlank, hspecial], hspecial ']' (by simp)⟩
  | _ => exact ⟨_, _, rfl, by decide, by decide⟩

theorem SpellsElements.head {js : List Json} {t : List Char} (h : SpellsElements js t)
    (rest : List Char) : ∃ c cs, skipBlanks (t ++ rest) = c :: cs ∧ c ≠ ']' := by
  have hfirst {j t} (h : SpellsElement j t) (rest) :
      ∃ c cs, skipBlanks (t ++ rest) = c :: cs ∧ c ≠ ']' := by
    obtain ⟨hbefore, hj, -⟩ := h
    obtain ⟨c, cs, rfl, hblank, hc⟩ := hj.head
    rw [List.append_assoc, skipBlanks_append hbefore]
    exact ⟨c, _, skipBlanks_cons hblank _, hc⟩
  cases h with
  | last h => exact hfirst h rest
  | more h _ =>
    rw [List.append_assoc]
    exact hfirst h _

theorem SpellsMembers.head {ms : List (String × Json)} {t : List Char} (h : SpellsMembers ms t)
    (rest : List Char) : ∃ cs, skipBlanks (t ++ rest) = '"' :: cs := by
  have hfirst {m t} (h : SpellsMember m t) (rest) : ∃ cs, skipBlanks (t ++ rest) = '"' :: cs := by
    obtain ⟨hbefore, -, -, -⟩ := h
    rw [List.append_assoc, skipBlanks_append hbefore]
    exact ⟨_, skipBlanks_cons (by decide) _⟩
  cases h with
  | last h => exact hfirst h rest
  | more h _ =>
    rw [List.append_assoc]
    exact hfirst h _

theorem namedMembers?_map (ms : List (String × Json)) :
    namedMembers? (ms.map fun m => (some m.1, m.2)) = some ms := by
  induction ms with
  | nil => rfl
  | cons m ms ih => simp [namedMembers?, ih]

theorem readValue_number {n : JsonNumber} (h : SpellsTail n.tail.toList) {rest : List Char}
    (hrest : Ends rest) (fuel : Nat) :
    readValue (fuel + 1) (n.text.toList ++ rest) = some (.number n, rest) := by
  have hread := readNumber_text h hrest.stops
  obtain ⟨c, cs, heq, hc⟩ := text_head n
  have hspecial := not_special_of_head hc
  have hblank : ¬ isBlank c := by simp [isBlank, hspecial]
  rw [heq, List.cons_append] at hread ⊢
  rw [readValue, skipBlanks_cons hblank]
  split <;> simp_all

def Closes (rest : List Char) : Prop :=
  ∃ c cs, rest = c :: cs ∧ (c = ',' ∨ c = ']' ∨ c = '\x7d')

theorem Closes.not_blank {rest : List Char} (h : Closes rest) : skipBlanks rest = rest := by
  obtain ⟨c, cs, rfl, rfl | rfl | rfl⟩ := h <;> rfl

theorem Closes.ends {rest : List Char} (h : Closes rest) : Ends rest := by
  obtain ⟨d, cs, rfl, hd⟩ := h
  intro c hc
  cases Option.mem_some_iff.mp hc
  exact .inr hd

theorem Ends.append {rest : List Char} (h : Ends rest) {after : List Char} (hafter : Blanks after) :
    Ends (after ++ rest) := by
  cases after with
  | nil => exact h
  | cons d after =>
    intro c hc
    cases Option.mem_some_iff.mp hc
    exact .inl (hafter _ List.mem_cons_self)

theorem readElements_of_readValue {j : Json} {cs after : List Char} {fuel : Nat}
    (h : readValue fuel cs = some (j, after)) :
    readElements (fuel + 1) cs = match skipBlanks after with
      | ',' :: rest => (readElements fuel rest).map fun (js, rest) => (j :: js, rest)
      | ']' :: rest => some ([j], rest)
      | _ => none := by
  rewrite [readElements, h]
  rfl

theorem readMembers_of_readValue {key : String} {j : Json} {k cs before between after : List Char}
    {fuel : Nat} (hbefore : Blanks before) (hkey : SpellsString key k) (hbetween : Blanks between)
    (h : readValue fuel cs = some (j, after)) :
    readMembers (fuel + 1) (before ++ '"' :: (k ++ '"' :: (between ++ ':' :: cs))) =
      match skipBlanks after with
      | ',' :: rest => (readMembers fuel rest).map fun (ms, rest) => ((some key, j) :: ms, rest)
      | '\x7d' :: rest => some ([(some key, j)], rest)
      | _ => none := by
  have hquote (cs) : skipBlanks ('"' :: cs) = '"' :: cs := skipBlanks_cons (by decide) cs
  have hcolon (cs) : skipBlanks (':' :: cs) = ':' :: cs := skipBlanks_cons (by decide) cs
  rw [readMembers]
  simp only [skipBlanks_append hbefore, hquote, hkey.read, skipBlanks_append hbetween, hcolon]
  rewrite [h]
  rfl

mutual

theorem Spells.read {j : Json} {t : List Char} (h : Spells j t) {fuel : Nat} {rest : List Char}
    (hfuel : 2 * t.length ≤ fuel) (hrest : Ends rest) :
    readValue fuel (t ++ rest) = some (j, rest) := by
  obtain ⟨c, cs, hcons, -, -⟩ := h.head
  have hpos : 0 < t.length := by simp [hcons]
  obtain ⟨fuel, rfl⟩ : ∃ m, fuel = m + 1 := ⟨fuel - 1, by omega⟩
  have hskip {c : Char} (hc : c ∈ ['\x7b', '\x7d', '[', ']', '"']) (cs : List Char) :
      skipBlanks (c :: cs) = c :: cs := by
    apply skipBlanks_cons
    simp only [List.mem_cons, List.not_mem_nil, or_false] at hc
    rcases hc with rfl | rfl | rfl | rfl | rfl <;> decide
  cases h with
  | null => rfl
  | true => rfl
  | false => rfl
  | number h => exact readValue_number h hrest fuel
  | @string s t h =>
    rw [List.cons_append, List.append_assoc, List.singleton_append, readValue, hskip (by simp)]
    simp only [h.read, Option.map_some]
    rfl
  | @unpaired t h =>
    rw [List.cons_append, List.append_assoc, List.singleton_append, readValue, hskip (by simp)]
    simp only [h.read, Option.map_some]
    rfl
  | @noElements w h =>
    rw [List.cons_append, List.append_assoc, List.singleton_append, readValue, hskip (by simp)]
    simp only [skipBlanks_append h, hskip (c := ']') (by simp)]
  | @array js t h =>
    rw [List.cons_append, List.append_assoc, List.singleton_append, readValue, hskip (by simp)]
    -- A closing bracket would end the array at once, but no element begins with one.
    have hfuel' : 2 * t.length + 2 ≤ fuel := by
      simp at hfuel
      omega
    have hread := h.read hfuel' rest
    obtain ⟨c, cs, hhead, hc⟩ := h.head (']' :: rest)
    rw [← readElements_skipBlanks, hhead] at hread
    simp only [hhead]
    split
    · rename_i heq
      exact absurd (List.cons.inj heq).1 hc
    · rw [hread]
      rfl
  | @noMembers w h =>
    rw [List.cons_append, List.append_assoc, List.singleton_append, readValue, hskip (by simp)]
    simp only [skipBlanks_append h, hskip (c := '\x7d') (by simp)]
  | @object ms t h =>
    rw [List.cons_append, List.append_assoc, List.singleton_append, readValue, hskip (by simp)]
    have hfuel' : 2 * t.length + 2 ≤ fuel := by
      simp at hfuel
      omega
    have hread := h.read hfuel' rest
    obtain ⟨cs, hhead⟩ := h.head ('\x7d' :: rest)
    rw [← readMembers_skipBlanks, hhead] at hread
    simp only [hhead]
    split
    · rename_i heq
      exact absurd (List.cons.inj heq).1 (by decide)
    · rw [hread]
      simp only [Option.map_some, ofMembers, namedMembers?_map]

theorem SpellsElement.read {j : Json} {t : List Char} (h : SpellsElement j t) {fuel : Nat}
    {rest : List Char} (hfuel : 2 * t.length ≤ fuel) (hrest : Closes rest) :
    ∃ after, readValue fuel (t ++ rest) = some (j, after) ∧ skipBlanks after = rest := by
  cases h with
  | @mk _ t before after hbefore hj hafter =>
    simp only [List.length_append] at hfuel
    refine ⟨after ++ rest, ?_, ?_⟩
    · rw [← readValue_skipBlanks, List.append_assoc, skipBlanks_append hbefore,
        readValue_skipBlanks, List.append_assoc]
      exact hj.read (by omega) (hrest.ends.append hafter)
    · rw [skipBlanks_append hafter, hrest.not_blank]

theorem SpellsElements.read {js : List Json} {t : List Char} (h : SpellsElements js t) {fuel : Nat}
    (hfuel : 2 * t.length + 2 ≤ fuel) (rest : List Char) :
    readElements fuel (t ++ ']' :: rest) = some (js, rest) := by
  obtain ⟨fuel, rfl⟩ : ∃ m, fuel = m + 1 := ⟨fuel - 1, by omega⟩
  cases h with
  | last h =>
    have hfuel' : 2 * t.length ≤ fuel := by omega
    obtain ⟨after, hread, hafter⟩ := h.read hfuel' ⟨']', rest, rfl, .inr (.inl rfl)⟩
    rw [readElements_of_readValue hread, hafter]
    rfl
  | @more j t js ts h hs =>
    simp only [List.length_append, List.length_cons] at hfuel
    rw [List.append_assoc, List.cons_append]
    have hfirst : 2 * t.length ≤ fuel := by omega
    have hrest : 2 * ts.length + 2 ≤ fuel := by omega
    obtain ⟨after, hread, hafter⟩ := h.read hfirst ⟨',', ts ++ ']' :: rest, rfl, .inl rfl⟩
    have hmore := hs.read hrest rest
    rw [readElements_of_readValue hread, hafter]
    simp only [hmore, Option.map_some]

theorem SpellsMembers.read {ms : List (String × Json)} {t : List Char} (h : SpellsMembers ms t)
    {fuel : Nat} (hfuel : 2 * t.length + 2 ≤ fuel) (rest : List Char) :
    readMembers fuel (t ++ '\x7d' :: rest) = some (ms.map fun m => (some m.1, m.2), rest) := by
  obtain ⟨fuel, rfl⟩ : ∃ m, fuel = m + 1 := ⟨fuel - 1, by omega⟩
  cases h with
  | @last m t h =>
    cases h with
    | @mk key k j t before between hbefore hkey hbetween h =>
      simp only [List.length_append, List.length_cons] at hfuel
      have hfirst : 2 * t.length ≤ fuel := by omega
      obtain ⟨after, hread, hafter⟩ := h.read hfirst ⟨'\x7d', rest, rfl, .inr (.inr rfl)⟩
      have hmember := readMembers_of_readValue hbefore hkey hbetween hread
      rw [hafter] at hmember
      simpa using hmember
  | @more m t ms ts h hs =>
    cases h with
    | @mk key k j t before between hbefore hkey hbetween h =>
      simp only [List.length_append, List.length_cons] at hfuel
      have hfirst : 2 * t.length ≤ fuel := by omega
      have hrest : 2 * ts.length + 2 ≤ fuel := by omega
      obtain ⟨after, hread, hafter⟩ := h.read hfirst ⟨',', ts ++ '\x7d' :: rest, rfl, .inl rfl⟩
      have hmember := readMembers_of_readValue hbefore hkey hbetween hread
      have hmore := hs.read hrest rest
      rw [hafter] at hmember
      simp only [hmore] at hmember
      simpa using hmember

end

theorem read?_of_spells {j : Json} {s : String} (h : SpellsElement j s.toList) :
    read? s = some j := by
  rw [read?]
  generalize s.toList = cs at h
  cases h with
  | @mk _ t before after hbefore hj hafter =>
    have hends : Ends (after ++ []) := Ends.append (by simp [Ends]) hafter
    rw [List.append_nil] at hends
    have hfuel : 2 * t.length ≤ 2 * (before ++ (t ++ after)).length + 2 := by
      simp only [List.length_append]
      omega
    have hread := hj.read hfuel hends
    rw [← readValue_skipBlanks] at hread ⊢
    rw [skipBlanks_append hbefore, hread]
    have hrest : skipBlanks after = [] := by
      rw [← List.append_nil after, skipBlanks_append hafter]
      rfl
    exact if_pos hrest

section Printing

inductive Printable : Json → Prop
  | null : Printable .null
  | bool (b) : Printable (.bool b)
  | number {n : JsonNumber} : SpellsTail n.tail.toList → Printable (.number n)
  | string (s) : Printable (.string s)
  | unpaired : Printable .unpaired
  | array {js} : (∀ j ∈ js, Printable j) → Printable (.array js)
  | object {ms : List (String × Json)} : (∀ m ∈ ms, Printable m.2) → Printable (.object ms)

theorem escape_cases (c : Char) : (∃ e, (e, c) ∈ shortEscapes ∧ escape c = ['\\', e]) ∨
    (c.toNat < 32 ∧ escape c =
      ['\\', 'u', '0', '0', Nat.digitChar (c.toNat / 16), Nat.digitChar (c.toNat % 16)]) ∨
    (32 ≤ c.toNat ∧ c ≠ '"' ∧ c ≠ '\\' ∧ escape c = [c]) := by
  rw [escape]
  split_ifs with hquote hslash _ _ _ _ _ hlow
  iterate 7 exact .inl ⟨_, by simp [shortEscapes, *], rfl⟩
  · exact .inr (.inl ⟨hlow, rfl⟩)
  · exact .inr (.inr ⟨by omega, hquote, hslash, rfl⟩)

theorem spells_escape (cs : List Char) :
    ∃ ps, SpellsPieces ps (cs.flatMap escape) ∧ Decodes ps cs := by
  induction cs with
  | nil => exact ⟨[], .nil, .nil⟩
  | cons c cs ih =>
    obtain ⟨ps, hpieces, hdecodes⟩ := ih
    rw [List.flatMap_cons]
    rcases escape_cases c with ⟨e, he, heq⟩ | ⟨hlow, heq⟩ | ⟨hlow, hquote, hslash, heq⟩
    · rw [heq]
      exact ⟨_, .short he hpieces, .char c hdecodes⟩
    · have hzero : HexDigit '0' 0 := ⟨by decide, .inl rfl⟩
      have hhigh : HexDigit (Nat.digitChar (c.toNat / 16)) (c.toNat / 16) := ⟨by omega, .inl rfl⟩
      have hlast : HexDigit (Nat.digitChar (c.toNat % 16)) (c.toNat % 16) := ⟨by omega, .inl rfl⟩
      have hunit := SpellsPieces.unit hzero hzero hhigh hlast hpieces
      have hvalue : ((0 * 16 + 0) * 16 + c.toNat / 16) * 16 + c.toNat % 16 = c.toNat := by omega
      rw [hvalue] at hunit
      rw [heq]
      exact ⟨_, hunit, .unit (by omega) hdecodes⟩
    · rw [heq]
      exact ⟨_, .plain hlow hquote hslash hpieces, .char c hdecodes⟩

theorem spells_quoted (s : String) : SpellsString s (s.toList.flatMap escape) :=
  spells_escape s.toList

theorem blanks_lineBreak (style : Style) : Blanks style.lineBreak := by
  cases style with
  | compact => simp [Blanks, Style.lineBreak]
  | pretty level =>
    intro c hc
    simp only [Style.lineBreak, List.mem_cons, List.mem_replicate] at hc
    rcases hc with rfl | ⟨-, rfl⟩ <;> rfl

theorem blanks_nil : Blanks [] := by simp [Blanks]

theorem spells_unpaired : SpellsUnpaired ['\\', 'u', 'd', '8', '0', '0'] := by
  refine ⟨[.unit 0xd800], ?_, ?_⟩
  · have hd : HexDigit 'd' 13 := ⟨by decide, .inl rfl⟩
    have height : HexDigit '8' 8 := ⟨by decide, .inl rfl⟩
    have hzero : HexDigit '0' 0 := ⟨by decide, .inl rfl⟩
    exact .unit hd height hzero hzero .nil
  · intro cs h
    have hjoin := h.join
    cases hjoin

theorem spells_printMember (style : Style) (key : String) {j : Json} {before after : List Char}
    (hbefore : Blanks before) (hj : Spells j (print style j)) (hafter : Blanks after) :
    SpellsMember (key, j) (before ++ (printMember style (key, j) ++ after)) := by
  have hmember {between} (hbetween : Blanks between) := SpellsMember.mk hbefore (spells_quoted key)
    blanks_nil (.mk hbetween hj hafter)
  cases style with
  | compact => simpa [printMember, quote, Style.colon] using hmember blanks_nil
  | pretty level =>
    have hblank : Blanks [' '] := by simp [Blanks, isBlank]
    simpa [printMember, quote, Style.colon] using hmember hblank

mutual

theorem spells_print (style : Style) : (j : Json) → Printable j → Spells j (print style j)
  | .null, _ => .null
  | .bool true, _ => .true
  | .bool false, _ => .false
  | .number n, h => by
    cases h with
    | number h => exact .number h
  | .string s, _ => .string (spells_quoted s)
  | .unpaired, _ => .unpaired spells_unpaired
  | .array [], _ => .noElements blanks_nil
  | .array (j :: js), h => by
    cases h with
    | array h =>
      obtain ⟨hj, hjs⟩ := List.forall_mem_cons.mp h
      have hall := spells_printRest style.inner js hjs (blanks_lineBreak style.inner)
        (spells_print style.inner j hj) (blanks_lineBreak style)
      rw [print]
      simpa using Spells.array hall
  | .object [], _ => .noMembers blanks_nil
  | .object ((key, j) :: ms), h => by
    cases h with
    | object h =>
      obtain ⟨hj, hms⟩ := List.forall_mem_cons.mp h
      have hall := spells_printMembers style.inner ms hms key (blanks_lineBreak style.inner)
        (spells_print style.inner j hj) (blanks_lineBreak style)
      rw [print]
      simpa using Spells.object hall

theorem spells_printRest (style : Style) : (js : List Json) → (∀ j ∈ js, Printable j) →
    ∀ {j before after}, Blanks before → Spells j (print style j) → Blanks after →
      SpellsElements (j :: js) (before ++ (print style j ++ (printRest style js ++ after)))
  | [], _, j, before, after, hbefore, hj, hafter => .last (.mk hbefore hj hafter)
  | j' :: js, h, j, before, after, hbefore, hj, hafter => by
    obtain ⟨hj', hjs⟩ := List.forall_mem_cons.mp h
    have hall := spells_printRest style js hjs (blanks_lineBreak style) (spells_print style j' hj')
      hafter
    have hmore := SpellsElements.more (.mk hbefore hj blanks_nil) hall
    rw [printRest]
    simpa using hmore

theorem spells_printMembers (style : Style) : (ms : List (String × Json)) →
    (∀ m ∈ ms, Printable m.2) → ∀ (key : String) {j before after}, Blanks before →
      Spells j (print style j) → Blanks after →
      SpellsMembers ((key, j) :: ms)
        (before ++ (printMember style (key, j) ++ (printMembers style ms ++ after)))
  | [], _, key, j, before, after, hbefore, hj, hafter =>
    .last (spells_printMember style key hbefore hj hafter)
  | (key', j') :: ms, h, key, j, before, after, hbefore, hj, hafter => by
    obtain ⟨hj', hms⟩ := List.forall_mem_cons.mp h
    have hall := spells_printMembers style ms hms key' (blanks_lineBreak style)
      (spells_print style j' hj') hafter
    have hmore := SpellsMembers.more (spells_printMember style key hbefore hj blanks_nil) hall
    rw [printMembers]
    simpa using hmore

end

theorem spells_compact {j : Json} (h : Printable j) : SpellsElement j j.compact.toList := by
  have hspells := SpellsElement.mk blanks_nil (spells_print .compact j h) blanks_nil
  simpa [compact] using hspells

theorem spells_pretty {j : Json} (h : Printable j) : SpellsElement j j.pretty.toList := by
  have hspells := SpellsElement.mk blanks_nil (spells_print (.pretty 0) j h) blanks_nil
  simpa [pretty] using hspells

end Printing

end GraphReduction.Json
