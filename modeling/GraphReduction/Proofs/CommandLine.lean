import GraphReduction.Proofs.Flags
namespace GraphReduction.Options

def isMarker (arg : String) : Bool := arg = "+RTS" || arg = "-RTS"

def isTerminator (arg : String) : Bool := arg = "--RTS" || arg = "--"

def interpreted (args : List String) : List String := args.takeWhile (!isTerminator ·)

def verbatim (args : List String) : List String := args.dropWhile (!isTerminator ·)

def nearestMarker? (before : List String) : Option String := (before.filter isMarker).getLast?

def underMarker (wanted : Option String → Bool) (args : List String) : List String :=
  (args.zipIdx.filter fun (arg, i) => !isMarker arg && wanted (nearestMarker? (args.take i))).map
    Prod.fst

theorem wordsFrom_eq (word cs : List Char) :
    Text.wordsFrom word cs = (List.splitOnPPrepend Text.isBlank cs word).filter (· ≠ []) := by
  induction cs generalizing word with
  | nil => cases word <;> simp [Text.wordsFrom, List.splitOnPPrepend]
  | cons c cs ih =>
    simp only [Text.wordsFrom, List.splitOnPPrepend]
    split
    · cases word <;> simp [ih]
    · exact ih (c :: word)

theorem words_eq (s : String) :
    Text.words s = ((s.toList.splitOnP Text.isBlank).filter (· ≠ [])).map String.ofList := by
  rw [Text.words, wordsFrom_eq, List.splitOnP]

theorem nearestMarker?_cons (arg : String) (before : List String) :
    nearestMarker? (arg :: before) =
      (nearestMarker? before).or (if isMarker arg then some arg else none) := by
  rw [nearestMarker?, nearestMarker?, List.filter_cons]
  split
  · rw [List.getLast?_cons]
    cases (before.filter isMarker).getLast? <;> rfl
  · rw [Option.or_none]

theorem underMarker_cons (wanted : Option String → Bool) (arg : String) (args : List String) :
    underMarker wanted (arg :: args) = (if !isMarker arg && wanted none then [arg] else []) ++
      underMarker (fun m => wanted (m.or (if isMarker arg then some arg else none))) args := by
  simp only [underMarker, List.zipIdx_cons', List.filter_cons, List.take_zero, List.filter_map]
  have htail : (args.zipIdx.filter ((fun x => !isMarker x.1 &&
      wanted (nearestMarker? ((arg :: args).take x.2))) ∘ Prod.map id (· + 1))) =
      args.zipIdx.filter fun x => !isMarker x.1 && wanted ((nearestMarker? (args.take x.2)).or
        (if isMarker arg then some arg else none)) := by
    congr 1
    funext x
    simp only [Function.comp_apply, Prod.map_fst, Prod.map_snd, id_eq, List.take_succ_cons,
      nearestMarker?_cons]
  rw [htail]
  split <;> simp_all [nearestMarker?, Function.comp_def]

theorem splitFrom_eq (start : Option String) (args : List String) :
    splitFrom (start = some "+RTS") args =
      ⟨underMarker (fun m => m.or start = some "+RTS") (interpreted args),
        underMarker (fun m => m.or start ≠ some "+RTS") (interpreted args) ++
          (verbatim args).head?.toList.filter (· = "--") ++ (verbatim args).tail⟩ := by
  induction args generalizing start with
  | nil => rfl
  | cons arg args ih =>
    rw [splitFrom]
    by_cases hkept : arg = "--RTS"
    · subst hkept
      rfl
    by_cases hdropped : arg = "--"
    · subst hdropped
      rfl
    have hinterpreted : interpreted (arg :: args) = arg :: interpreted args := by
      simp [interpreted, isTerminator, hkept, hdropped]
    have hverbatim : verbatim (arg :: args) = verbatim args := by
      simp [verbatim, isTerminator, hkept, hdropped]
    rw [if_neg hkept, if_neg hdropped, hinterpreted, hverbatim, underMarker_cons, underMarker_cons]
    by_cases hplus : arg = "+RTS"
    · subst hplus
      have h := ih (some "+RTS")
      simp [isMarker] at h ⊢
      exact h
    by_cases hminus : arg = "-RTS"
    · subst hminus
      have h := ih (some "-RTS")
      simp [isMarker] at h ⊢
      exact h
    · have hmarker : isMarker arg = false := by simp [isMarker, hplus, hminus]
      simp [hplus, hminus, ih, hmarker]
      split <;> simp_all

theorem runtimeArgs_eq (environment : Option String) (args : List String) :
    runtimeArgs environment args = (environment.map Text.words).getD [] ++
      underMarker (· = some "+RTS") (interpreted args) := by
  have h := splitFrom_eq none args
  simp only [Option.or_none] at h
  rw [runtimeArgs, split, show false = decide (none = some "+RTS") from rfl, h]

theorem split_program (args : List String) :
    (split args).program = underMarker (· ≠ some "+RTS") (interpreted args) ++
      (verbatim args).head?.toList.filter (· = "--") ++ (verbatim args).tail := by
  have h := splitFrom_eq none args
  simp only [Option.or_none] at h
  rw [split, show false = decide (none = some "+RTS") from rfl, h]

theorem interpreted_append_verbatim (args : List String) :
    interpreted args ++ verbatim args = args :=
  List.takeWhile_append_dropWhile

theorem head?_append_tail (args : List String) : args.head?.toList ++ args.tail = args := by
  cases args <;> rfl

theorem underMarker_sublist (wanted : Option String → Bool) (args : List String) :
    (underMarker wanted args).Sublist args := by
  have h : (underMarker wanted args).Sublist (args.zipIdx.map Prod.fst) := List.filter_sublist.map _
  rwa [List.zipIdx_map_fst] at h

theorem program_sublist (args : List String) : (split args).program.Sublist args := by
  rw [split_program, List.append_assoc]
  have hrest : ((verbatim args).head?.toList.filter (· = "--") ++ (verbatim args).tail).Sublist
      (verbatim args) := by
    nth_rewrite 3 [← head?_append_tail (verbatim args)]
    exact List.filter_sublist.append (.refl _)
  have h := (underMarker_sublist (· ≠ some "+RTS") (interpreted args)).append hrest
  rwa [interpreted_append_verbatim] at h

theorem underMarker_perm (wanted : Option String → Bool) (args : List String) :
    (underMarker wanted args ++ underMarker (fun m => !wanted m) args).Perm
      (args.filter (!isMarker ·)) := by
  induction args generalizing wanted with
  | nil => rfl
  | cons arg args ih =>
    rw [underMarker_cons, underMarker_cons, List.filter_cons]
    cases isMarker arg with
    | true => simpa using ih _
    | false =>
      have h := (ih wanted).cons arg
      cases wanted none with
      | true => simpa using h
      | false => simpa using List.perm_middle.trans h

theorem underMarker_of_unmarked {args : List String} (h : ∀ arg ∈ args, isMarker arg = false)
    (wanted : Option String → Bool) :
    underMarker wanted args = if wanted none then args else [] := by
  induction args with
  | nil => simp [underMarker]
  | cons arg args ih =>
    obtain ⟨harg, hargs⟩ := List.forall_mem_cons.mp h
    rw [underMarker_cons, harg]
    simp only [Bool.false_eq_true, if_false, Option.or_none, ih hargs]
    cases wanted none <;> rfl

theorem isTerminator_eq_false_of_mem {arg : String} {args : List String}
    (h : arg ∈ interpreted args) : isTerminator arg = false := by
  simpa using List.all_eq_true.mp List.all_takeWhile arg h

theorem isTerminator_of_head? {arg : String} {args : List String}
    (h : (verbatim args).head? = some arg) : isTerminator arg := by
  have hstop := List.head?_dropWhile_not (!isTerminator ·) args
  rw [verbatim] at h
  rw [h] at hstop
  simpa using hstop

theorem interpreted_append {before : List String} {terminator : String} (after : List String)
    (hbefore : ∀ arg ∈ before, isTerminator arg = false) (h : isTerminator terminator) :
    interpreted (before ++ terminator :: after) = before := by
  rw [interpreted, List.takeWhile_append_of_pos (by simpa using hbefore)]
  simp [h]

theorem verbatim_append {before : List String} {terminator : String} (after : List String)
    (hbefore : ∀ arg ∈ before, isTerminator arg = false) (h : isTerminator terminator) :
    verbatim (before ++ terminator :: after) = terminator :: after := by
  rw [verbatim, List.dropWhile_append_of_pos (by simpa using hbefore)]
  simp [h]

theorem split_of_unmarked {args : List String}
    (h : ∀ arg ∈ args, arg ≠ "+RTS" ∧ arg ≠ "-RTS" ∧ arg ≠ "--RTS") :
    underMarker (· = some "+RTS") (interpreted args) = [] ∧ (split args).program = args := by
  have hunmarked : ∀ arg ∈ interpreted args, isMarker arg = false := by
    intro arg harg
    obtain ⟨hplus, hminus, -⟩ := h arg (List.takeWhile_sublist _ |>.subset harg)
    simp [isMarker, hplus, hminus]
  have hkept : (verbatim args).head?.toList.filter (· = "--") = (verbatim args).head?.toList := by
    apply List.filter_eq_self.mpr
    intro arg harg
    have hhead := Option.mem_toList.mp harg
    have hmem := (List.dropWhile_sublist _).subset (List.mem_of_mem_head? hhead)
    simpa [isTerminator, (h arg hmem).2.2] using isTerminator_of_head? hhead
  rw [split_program, underMarker_of_unmarked hunmarked, underMarker_of_unmarked hunmarked, hkept]
  refine ⟨rfl, ?_⟩
  simp only [ne_eq, reduceCtorEq, not_false_eq_true, decide_true, if_true]
  rw [List.append_assoc, head?_append_tail, interpreted_append_verbatim]

theorem foldl_program (settings : List Setting) (p : Parsed) (program : List String) :
    settings.foldl apply { p with programArgs := program } =
      { settings.foldl apply p with programArgs := program } := by
  induction settings generalizing p with
  | nil => rfl
  | cons s settings ih =>
    rw [List.foldl_cons, List.foldl_cons, ← ih]
    congr 1
    cases s <;> rfl

theorem foldl_runtimeArgs (settings : List Setting) (p : Parsed) :
    (settings.foldl apply p).runtimeArgs = p.runtimeArgs := by
  induction settings generalizing p with
  | nil => rfl
  | cons s settings ih =>
    rw [List.foldl_cons, ih]
    cases s <;> rfl

section Parse

variable {defaults : RuntimeOptions} {environment : Option String} {args : List String} {p : Parsed}

theorem runtimeArgs_of_parse (h : parse defaults environment args = .ok p) :
    p.runtimeArgs = runtimeArgs environment args := by
  obtain ⟨-, rfl⟩ := parse_eq_ok_iff.mp h
  rw [foldl_runtimeArgs]

theorem programArgs_of_parse (h : parse defaults environment args = .ok p) :
    p.programArgs = (split args).program := by
  obtain ⟨-, rfl⟩ := parse_eq_ok_iff.mp h
  rw [foldl_program _ ⟨defaults, [], _, _, _⟩]

theorem parse_congr {args' : List String}
    (hargs : runtimeArgs environment args' = runtimeArgs environment args)
    (h : parse defaults environment args = .ok p) :
    parse defaults environment args' = .ok { p with programArgs := (split args').program } := by
  obtain ⟨hvalid, rfl⟩ := parse_eq_ok_iff.mp h
  refine parse_eq_ok_iff.mpr ⟨hargs ▸ hvalid, ?_⟩
  rw [hargs, ← foldl_program]

/-- Every argument goes to one side, by the nearest marker before it; the first terminator ends
the scan. -/
theorem parse_divides_by_markers (h : parse defaults environment args = .ok p) :
    let runtimeSide := underMarker (· = some "+RTS") (interpreted args)
    let programSide := underMarker (· ≠ some "+RTS") (interpreted args)
    let kept := (verbatim args).head?.toList.filter (· = "--")
    p.runtimeArgs = (environment.map fun s =>
        ((s.toList.splitOnP Text.isBlank).filter (· ≠ [])).map String.ofList).getD [] ++
      runtimeSide ∧
    p.programArgs = programSide ++ kept ++ (verbatim args).tail ∧
    (runtimeSide ++ p.programArgs).Perm
      ((interpreted args).filter (!isMarker ·) ++ kept ++ (verbatim args).tail) ∧
    runtimeSide.Sublist args ∧ p.programArgs.Sublist args ∧
    (∀ terminator ∈ (verbatim args).head?, ∀ after,
      parse defaults environment (interpreted args ++ terminator :: after) =
        .ok { p with programArgs := programSide ++ kept ++ after }) ∧
    ((∀ arg ∈ args, arg ≠ "+RTS" ∧ arg ≠ "-RTS" ∧ arg ≠ "--RTS") →
      runtimeSide = [] ∧ p.programArgs = args) := by
  intro runtimeSide programSide kept
  have hprogram := programArgs_of_parse h
  refine ⟨?_, ?_, ?_, ?_, ?_, ?_, ?_⟩
  · rw [runtimeArgs_of_parse h, runtimeArgs_eq, funext words_eq]
  · rw [hprogram, split_program]
  · rw [hprogram, split_program, ← List.append_assoc, ← List.append_assoc]
    apply List.Perm.append_right
    apply List.Perm.append_right
    have hperm := underMarker_perm (· = some "+RTS") (interpreted args)
    simpa only [← decide_not] using hperm
  · exact (underMarker_sublist _ _).trans (List.takeWhile_sublist _)
  · rw [hprogram]
    exact program_sublist args
  · intro terminator hterminator after
    have hbefore : ∀ arg ∈ interpreted args, isTerminator arg = false :=
      fun _ => isTerminator_eq_false_of_mem
    have hends := isTerminator_of_head? hterminator
    have hsame := interpreted_append after hbefore hends
    have hruntime : runtimeArgs environment (interpreted args ++ terminator :: after) =
        runtimeArgs environment args := by
      rw [runtimeArgs_eq, runtimeArgs_eq, hsame]
    rw [parse_congr hruntime h, split_program, hsame, verbatim_append after hbefore hends]
    rw [List.head?_cons, List.tail_cons, ← Option.mem_def.mp hterminator]
  · intro hunmarked
    rw [hprogram]
    exact split_of_unmarked hunmarked

end Parse

theorem parse_divides_by_markers_repeated :
    ∃ p, parse (.default 2) (some " -e7\t-N4 ")
        ["a", "+RTS", "-K9", "+RTS", "-RTS", "b", "--", "+RTS"] = .ok p ∧
      p.runtimeArgs = ["-e7", "-N4", "-K9"] ∧ p.programArgs = ["a", "b", "--", "+RTS"] := by
  have hparse : parse (.default 2) (some " -e7\t-N4 ")
      ["a", "+RTS", "-K9", "+RTS", "-RTS", "b", "--", "+RTS"] =
      .ok ⟨⟨4, 0, 7, 9, ⟨false⟩⟩, ["a", "b", "--", "+RTS"], ["-e7", "-N4", "-K9"], false,
        false⟩ := by
    decide +kernel
  obtain ⟨hruntime, hprogram, -⟩ := parse_divides_by_markers hparse
  exact ⟨_, hparse, hruntime.trans (by decide +kernel), hprogram.trans (by decide +kernel)⟩

end GraphReduction.Options
