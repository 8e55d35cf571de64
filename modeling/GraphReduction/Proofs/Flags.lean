import Mathlib.Data.List.Induction
import GraphReduction.Options.CommandLine
namespace GraphReduction.Options

def Positive (text : List Char) (n : UInt64) : Prop :=
  ∃ digits : List Char, (text = digits ∨ text = '+' :: digits) ∧ digits ≠ [] ∧
    (∀ c ∈ digits, c.isDigit) ∧ Nat.ofDigitChars 10 digits 0 = n.toNat ∧ n ≠ 0

def single? (text : List Char) : Option BinaryNumber :=
  (Decimal.read? (String.ofList text)).map fun
    | .nan => .nan
    | .infinite negative => .infinite negative
    | .decimal negative d =>
      match BinaryFormat.single.decode (BinaryFormat.single.ofDecimal d) with
      | .finite _ magnitude => .finite negative magnitude
      | .infinite _ => .infinite negative
      | .nan => .nan

/-- The text is a finite number of seconds that is not below zero; `-0` is not below zero. -/
def Seconds (text : List Char) (d : Dyadic) : Prop :=
  ∃ negative, single? text = some (.finite negative d) ∧ (negative = true → d.mantissa = 0)

inductive Means : List Char → Setting → Prop
  | usage (rest) : Means ('-' :: '?' :: rest) .usage
  | info : Means ['-', '-', 'i', 'n', 'f', 'o'] .info
  | debug : Means ['-', 'D'] .nothing
  | trace (n) : Means ('-' :: 'D' :: List.replicate (n + 1) 's') .traceScheduler
  | noIdling : Means ['-', 'C'] (.idleTimeout 0)
  | idling {text d} : text ≠ [] → Seconds text d →
      Means ('-' :: 'C' :: text) (.idleTimeout (milliseconds d))
  | worker : Means ['-', 'N'] (.workers 1)
  | workers {text n} : Positive text n → Means ('-' :: 'N' :: text) (.workers n)
  | sparks : Means ['-', 'e'] .nothing
  | sparkBudget {text n} : Positive text n → Means ('-' :: 'e' :: text) (.sparkBudget n)
  | stackLimit {text n} : Positive text n → Means ('-' :: 'K' :: text) (.stackLimit n)

inductive Faulty : List Char → Problem → Prop
  | unexpected {arg} : arg.head? ≠ some '-' →
      Faulty arg (.unexpectedArgument (String.ofList arg))
  | dash : Faulty ['-'] (.unknownOption "-")
  | long {rest} : rest ≠ ['i', 'n', 'f', 'o'] →
      Faulty ('-' :: '-' :: rest) (.unknownLongOption (String.ofList ('-' :: '-' :: rest)))
  | unknown {flag} (rest) : flag ∉ ['?', '-', 'D', 'C', 'N', 'e', 'K'] →
      Faulty ('-' :: flag :: rest) (.unknownOption (String.ofList ('-' :: flag :: rest)))
  | debug {rest} : (∃ c ∈ rest, c ≠ 's') →
      Faulty ('-' :: 'D' :: rest) (.badOption (String.ofList ('-' :: 'D' :: rest)))
  | seconds {text} : text ≠ [] → (∀ d, ¬ Seconds text d) →
      Faulty ('-' :: 'C' :: text) (.badValue 'C' (String.ofList text))
  | number {flag text} : flag ∈ ['N', 'e', 'K'] → (text = [] → flag = 'K') →
      (∀ n, ¬ Positive text n) → Faulty ('-' :: flag :: text) (.badValue flag (String.ofList text))

section Numbers

theorem digitsValue_eq (cs : List Char) : Decimal.digitsValue cs = Nat.ofDigitChars 10 cs 0 :=
  Nat.ofDigitChars_eq_foldl.symm

theorem readUnsigned?_digits {digits : List Char} (hne : digits ≠ [])
    (hdigits : ∀ c ∈ digits, c.isDigit) :
    readUnsigned? digits = readUnsigned? ('+' :: digits) := by
  cases digits with
  | nil => exact absurd rfl hne
  | cons c cs =>
    have hc : c ≠ '+' := by
      rintro rfl
      exact absurd (hdigits '+' List.mem_cons_self) (by decide)
    simp only [readUnsigned?]
    split
    · rename_i heq
      exact absurd (List.cons.inj heq).1 hc
    · rfl

theorem readUnsigned?_plus {digits : List Char} {n : UInt64} :
    readUnsigned? ('+' :: digits) = some n ↔
      digits ≠ [] ∧ (∀ c ∈ digits, c.isDigit) ∧ Nat.ofDigitChars 10 digits 0 = n.toNat := by
  simp only [readUnsigned?, ← digitsValue_eq]
  split
  · rename_i h
    simp only [reduceCtorEq, false_iff]
    rintro ⟨hne, hall, -⟩
    rcases h with rfl | h
    · exact hne rfl
    · simp only [Bool.not_eq_true', List.all_eq_false] at h
      obtain ⟨c, hc, hn⟩ := h
      exact hn (hall c hc)
  · rename_i h
    simp only [not_or, Bool.not_eq_true', Bool.not_eq_false, List.all_eq_true] at h
    simp only [ne_eq, h.1, not_false_eq_true, true_and, Option.ite_none_right_eq_some,
      Option.some.injEq]
    constructor
    · rintro ⟨hlt, rfl⟩
      exact ⟨h.2, (UInt64.toNat_ofNat_of_lt hlt).symm⟩
    · rintro ⟨-, heq⟩
      rw [heq]
      exact ⟨n.toNat_lt, UInt64.ofNat_toNat⟩

theorem readPositive?_eq_some_iff {text : List Char} {n : UInt64} :
    readPositive? text = some n ↔ readUnsigned? text = some n ∧ n ≠ 0 := by
  rw [readPositive?]
  cases readUnsigned? text with
  | none => simp
  | some m =>
    simp only [Option.ite_none_left_eq_some, Option.some.injEq]
    constructor
    · rintro ⟨h, rfl⟩
      exact ⟨rfl, h⟩
    · rintro ⟨rfl, h⟩
      exact ⟨h, rfl⟩

theorem readPositive?_iff {text : List Char} {n : UInt64} :
    readPositive? text = some n ↔ Positive text n := by
  rw [readPositive?_eq_some_iff]
  constructor
  · rintro ⟨h, hn⟩
    by_cases hplus : ∃ digits, text = '+' :: digits
    · obtain ⟨digits, rfl⟩ := hplus
      obtain ⟨hne, hall, hvalue⟩ := readUnsigned?_plus.mp h
      exact ⟨digits, .inr rfl, hne, hall, hvalue, hn⟩
    · have heq : readUnsigned? text = readUnsigned? ('+' :: text) := by
        simp only [readUnsigned?]
        split
        · exact absurd ⟨_, rfl⟩ hplus
        · rfl
      obtain ⟨hne, hall, hvalue⟩ := readUnsigned?_plus.mp (heq.symm.trans h)
      exact ⟨text, .inl rfl, hne, hall, hvalue, hn⟩
  · rintro ⟨digits, rfl | rfl, hne, hall, hvalue, hn⟩
    · exact ⟨(readUnsigned?_digits hne hall).trans (readUnsigned?_plus.mpr ⟨hne, hall, hvalue⟩), hn⟩
    · exact ⟨readUnsigned?_plus.mpr ⟨hne, hall, hvalue⟩, hn⟩

theorem readSeconds?_iff {text : List Char} {d : Dyadic} :
    readSeconds? (String.ofList text) = some d ↔ Seconds text d := by
  rw [readSeconds?, Seconds, single?]
  cases Decimal.read? (String.ofList text) with
  | none => simp
  | some written =>
    cases written with
    | nan => simp
    | infinite negative => simp
    | decimal negative magnitude =>
      simp only [Option.map_some]
      generalize BinaryFormat.single.decode (BinaryFormat.single.ofDecimal magnitude) = number
      cases number with
      | nan => simp
      | infinite _ => simp
      | finite _ m =>
        simp only [Option.ite_none_left_eq_some, Option.some.injEq, BinaryNumber.finite.injEq,
          not_and, not_not, ne_eq]
        constructor
        · rintro ⟨h, rfl⟩
          exact ⟨negative, ⟨rfl, rfl⟩, h⟩
        · rintro ⟨_, ⟨rfl, rfl⟩, h⟩
          exact ⟨h, rfl⟩

end Numbers

theorem Positive.ne_nil {text : List Char} {n : UInt64} (h : Positive text n) : text ≠ [] := by
  obtain ⟨digits, rfl | rfl, hne, -⟩ := h
  · exact hne
  · exact List.cons_ne_nil _ _

theorem Means.readSetting {arg : List Char} {s : Setting} (h : Means arg s) :
    readSetting (String.ofList arg) = .ok s := by
  cases h with
  | usage rest => simp [Options.readSetting]
  | info => simp [Options.readSetting]
  | debug => simp [Options.readSetting]
  | trace n => simp [Options.readSetting]
  | noIdling => simp [Options.readSetting]
  | idling hne h => simp [Options.readSetting, hne, readSeconds?_iff.mpr h]
  | worker => simp [Options.readSetting]
  | workers h => simp [Options.readSetting, h.ne_nil, readPositive?_iff.mpr h]
  | sparks => simp [Options.readSetting]
  | sparkBudget h => simp [Options.readSetting, h.ne_nil, readPositive?_iff.mpr h]
  | stackLimit h => simp [Options.readSetting, readPositive?_iff.mpr h]

theorem readPositive?_eq_none {text : List Char} (h : ∀ n, ¬ Positive text n) :
    readPositive? text = none :=
  Option.eq_none_iff_forall_ne_some.mpr fun n hn => h n (readPositive?_iff.mp hn)

theorem readSeconds?_eq_none {text : List Char} (h : ∀ d, ¬ Seconds text d) :
    readSeconds? (String.ofList text) = none :=
  Option.eq_none_iff_forall_ne_some.mpr fun d hd => h d (readSeconds?_iff.mp hd)

theorem Faulty.readSetting {arg : List Char} {p : Problem} (h : Faulty arg p) :
    readSetting (String.ofList arg) = .error p := by
  cases h with
  | unexpected h =>
    cases arg with
    | nil => rfl
    | cons c cs =>
      have hc : c ≠ '-' := by simpa using h
      simp [Options.readSetting, hc]
  | dash => rfl
  | long h => simp [Options.readSetting, String.ext_iff, h]
  | unknown rest h =>
    simp only [List.mem_cons, List.not_mem_nil, or_false, not_or] at h
    simp [Options.readSetting, h]
  | debug h =>
    obtain ⟨c, hc, hs⟩ := h
    have hall : ¬ ∀ c ∈ _, c = 's' := fun hall => hs (hall c hc)
    simp [Options.readSetting, List.ne_nil_of_mem hc, hall]
  | seconds hne h => simp [Options.readSetting, hne, readSeconds?_eq_none h]
  | number hflag hne h =>
    simp only [List.mem_cons, List.not_mem_nil, or_false] at hflag
    rcases hflag with rfl | rfl | rfl
    · have hne := mt hne (by decide)
      simp [Options.readSetting, readPositive?_eq_none h, hne]
    · have hne := mt hne (by decide)
      simp [Options.readSetting, readPositive?_eq_none h, hne]
    · simp [Options.readSetting, readPositive?_eq_none h]

theorem number_means_or_faulty {flag : Char} {text : List Char} {setting : UInt64 → Setting}
    (hflag : flag ∈ ['N', 'e', 'K']) (hbare : text = [] → flag = 'K')
    (h : ∀ n, Positive text n → Means ('-' :: flag :: text) (setting n)) :
    (∃ s, Means ('-' :: flag :: text) s) ∨ ∃ p, Faulty ('-' :: flag :: text) p := by
  by_cases hn : ∃ n, Positive text n
  · obtain ⟨n, hn⟩ := hn
    exact .inl ⟨_, h n hn⟩
  · exact .inr ⟨_, .number hflag hbare (not_exists.mp hn)⟩

theorem means_or_faulty (arg : List Char) : (∃ s, Means arg s) ∨ ∃ p, Faulty arg p := by
  by_cases hhead : arg.head? = some '-'
  swap
  · exact .inr ⟨_, .unexpected hhead⟩
  obtain ⟨body, rfl⟩ := List.head?_eq_some_iff.mp hhead
  cases body with
  | nil => exact .inr ⟨_, .dash⟩
  | cons flag text =>
    by_cases hflag : flag ∈ ['?', '-', 'D', 'C', 'N', 'e', 'K']
    swap
    · exact .inr ⟨_, .unknown text hflag⟩
    simp only [List.mem_cons, List.not_mem_nil, or_false] at hflag
    rcases hflag with rfl | rfl | rfl | rfl | rfl | rfl | rfl
    · exact .inl ⟨_, .usage text⟩
    · by_cases htext : text = ['i', 'n', 'f', 'o']
      · rw [htext]
        exact .inl ⟨_, .info⟩
      · exact .inr ⟨_, .long htext⟩
    · by_cases hs : ∃ c ∈ text, c ≠ 's'
      · exact .inr ⟨_, .debug hs⟩
      · push Not at hs
        rw [List.eq_replicate_of_mem hs]
        cases text.length with
        | zero => exact .inl ⟨_, .debug⟩
        | succ n => exact .inl ⟨_, .trace n⟩
    · by_cases hbare : text = []
      · rw [hbare]
        exact .inl ⟨_, .noIdling⟩
      · by_cases hd : ∃ d, Seconds text d
        · obtain ⟨d, hd⟩ := hd
          exact .inl ⟨_, .idling hbare hd⟩
        · exact .inr ⟨_, .seconds hbare (not_exists.mp hd)⟩
    · by_cases hbare : text = []
      · rw [hbare]
        exact .inl ⟨_, .worker⟩
      · exact number_means_or_faulty (by simp) (absurd · hbare) fun _ => .workers
    · by_cases hbare : text = []
      · rw [hbare]
        exact .inl ⟨_, .sparks⟩
      · exact number_means_or_faulty (by simp) (absurd · hbare) fun _ => .sparkBudget
    · exact number_means_or_faulty (by simp) (fun _ => rfl) fun _ => .stackLimit

theorem readSetting_eq_ok_iff {arg : String} {s : Setting} :
    readSetting arg = .ok s ↔ Means arg.toList s := by
  constructor
  · intro h
    obtain ⟨s', h'⟩ | ⟨p, hp⟩ := means_or_faulty arg.toList
    · have heq := h'.readSetting
      rw [String.ofList_toList, h] at heq
      cases heq
      exact h'
    · have heq := hp.readSetting
      rw [String.ofList_toList, h] at heq
      cases heq
  · intro h
    have heq := h.readSetting
    rwa [String.ofList_toList] at heq

theorem Means.unique {arg : List Char} {s t : Setting} (hs : Means arg s) (ht : Means arg t) :
    s = t := by
  have heq := hs.readSetting.symm.trans ht.readSetting
  exact Except.ok.inj heq

theorem problemOf?_eq_none_iff {arg : String} :
    problemOf? arg = none ↔ ∃ s, Means arg.toList s := by
  simp only [← readSetting_eq_ok_iff, problemOf?]
  split <;> simp_all

def LastSet {α : Type} (sets : Setting → α → Prop) (default : α) (args : List String) (v : α) :
    Prop :=
  (∃ before arg after s, args = before ++ arg :: after ∧ Means arg.toList s ∧ sets s v ∧
    ∀ other ∈ after, ∀ t, Means other.toList t → ∀ w, ¬ sets t w) ∨
  (v = default ∧ ∀ other ∈ args, ∀ t, Means other.toList t → ∀ w, ¬ sets t w)

structure Settled (defaults : RuntimeOptions) (args : List String) (p : Parsed) : Prop where
  workerCount : LastSet (fun s n => s = .workers n) defaults.workerCount args p.options.workerCount
  idleTimeout : LastSet (fun s n => s = .idleTimeout n) defaults.idleTimeout args
    p.options.idleTimeout
  sparkBudget : LastSet (fun s n => s = .sparkBudget n) defaults.sparkBudget args
    p.options.sparkBudget
  stackLimit : LastSet (fun s n => s = .stackLimit n) defaults.stackLimit args p.options.stackLimit
  debug : LastSet (fun s d => s = .traceScheduler ∧ d = ⟨true⟩) defaults.debug args p.options.debug
  showInfo : LastSet (fun s b => s = .info ∧ b = true) false args p.showInfo
  showUsage : LastSet (fun s b => s = .usage ∧ b = true) false args p.showUsage

def runtimeArgs (environment : Option String) (args : List String) : List String :=
  (environment.map Text.words).getD [] ++ (split args).runtime

variable {defaults : RuntimeOptions} {environment : Option String} {args : List String}

theorem parse_eq_ok_iff {p : Parsed} :
    parse defaults environment args = .ok p ↔
      (∀ arg ∈ runtimeArgs environment args, ∃ s, Means arg.toList s) ∧
        ((runtimeArgs environment args).filterMap settingOf?).foldl apply
          ⟨defaults, (split args).program, runtimeArgs environment args, false, false⟩ = p := by
  have hvalid : (∀ arg ∈ runtimeArgs environment args, ∃ s, Means arg.toList s) ↔
      (runtimeArgs environment args).filterMap problemOf? = [] := by
    simp only [List.filterMap_eq_nil_iff, problemOf?_eq_none_iff]
  rw [hvalid, parse, runtimeArgs]
  split
  · rename_i h
    simp only [h, true_and, Except.ok.injEq]
  · rename_i h
    simp only [reduceCtorEq, false_iff, not_and]
    exact fun hnil => absurd hnil h

theorem LastSet.ne_zero {sets : Setting → UInt64 → Prop} {default n : UInt64} {args : List String}
    (h : LastSet sets default args n) (hdefault : default ≠ 0)
    (hset : ∀ arg s, Means arg s → sets s n → n ≠ 0) : n ≠ 0 := by
  rcases h with ⟨before, arg, after, s, rfl, hmeans, hsets, -⟩ | ⟨rfl, -⟩
  · exact hset _ s hmeans hsets
  · exact hdefault

theorem Positive.ne_zero {text : List Char} {n : UInt64} (h : Positive text n) : n ≠ 0 := by
  obtain ⟨_, _, _, _, _, hn⟩ := h
  exact hn

theorem Means.ne_zero {arg : List Char} {s : Setting} {n : UInt64} (h : Means arg s)
    (hs : s = .workers n ∨ s = .sparkBudget n ∨ s = .stackLimit n) : n ≠ 0 := by
  cases h with
  | worker =>
    simp only [Setting.workers.injEq, reduceCtorEq, or_self, or_false] at hs
    subst hs
    decide
  | workers hn =>
    simp only [Setting.workers.injEq, reduceCtorEq, or_self, or_false] at hs
    exact hs ▸ hn.ne_zero
  | sparkBudget hn =>
    simp only [Setting.sparkBudget.injEq, reduceCtorEq, or_false, false_or] at hs
    exact hs ▸ hn.ne_zero
  | stackLimit hn =>
    simp only [Setting.stackLimit.injEq, reduceCtorEq, false_or] at hs
    exact hs ▸ hn.ne_zero
  | _ => simp at hs

theorem default_workerCount_ne_zero (processors : UInt64) :
    (RuntimeOptions.default processors).workerCount ≠ 0 := by
  change (if processors ≤ 1 then 1 else processors) ≠ 0
  split
  · decide
  · rename_i h
    rintro rfl
    exact h (by decide)

theorem Settled.ne_zero {processors : UInt64} {p : Parsed}
    (h : Settled (RuntimeOptions.default processors) args p) :
    p.options.workerCount ≠ 0 ∧ p.options.sparkBudget ≠ 0 ∧ p.options.stackLimit ≠ 0 := by
  refine ⟨h.workerCount.ne_zero (default_workerCount_ne_zero processors) ?_,
    h.sparkBudget.ne_zero (show (4096 : UInt64) ≠ 0 by decide) ?_,
    h.stackLimit.ne_zero (show UInt64.ofNat defaultStackLimit ≠ 0 by decide) ?_⟩
  · exact fun _ _ hmeans hs => hmeans.ne_zero (.inl hs)
  · exact fun _ _ hmeans hs => hmeans.ne_zero (.inr (.inl hs))
  · exact fun _ _ hmeans hs => hmeans.ne_zero (.inr (.inr hs))

namespace Setting

def letter? : Setting → Option Char
  | .usage => some '?'
  | .info => some '-'
  | .nothing => none
  | .traceScheduler => some 'D'
  | .idleTimeout _ => some 'C'
  | .workers _ => some 'N'
  | .sparkBudget _ => some 'e'
  | .stackLimit _ => some 'K'

end Setting

theorem Means.letter {arg : List Char} {s : Setting} (h : Means arg s) :
    s.letter? = none ∨ s.letter? = arg[1]? := by
  cases h <;> simp [Setting.letter?]

structure Parsed.Alike (p q : Parsed) : Prop where
  options : p.options = q.options
  showInfo : p.showInfo = q.showInfo
  showUsage : p.showUsage = q.showUsage

theorem Parsed.Alike.apply {p q : Parsed} (h : p.Alike q) (s : Setting) :
    (apply p s).Alike (apply q s) := by
  obtain ⟨ho, hi, hu⟩ := h
  cases s <;> constructor <;> simp [Options.apply, ho, hi, hu]

theorem Parsed.Alike.foldl {p q : Parsed} (h : p.Alike q) (settings : List Setting) :
    (settings.foldl Options.apply p).Alike (settings.foldl Options.apply q) := by
  induction settings generalizing p q with
  | nil => exact h
  | cons s settings ih => exact ih (h.apply s)

end GraphReduction.Options
