-- SUMMARY: Windows command lines: the arguments are quoted so that splitting gives them back.
import Luma.Library.BigEndian

/-! # Command Lines

A process on Windows gets one string, which the C runtime of the program splits into
arguments again. Each argument is written bare, or between quotes with the backslashes in
front of every quote doubled. -/

namespace Luma.CommandLine

open Codec

def space : UInt8 := 32
def tab : UInt8 := 9
def quote : UInt8 := 34
def backslash : UInt8 := 92

/-! ## Building -/

/-- The characters that make an argument need quotes. -/
def needsQuotes (c : UInt8) : Bool := c = space || c = tab || c = quote

/-- The text between the quotes, with `numBackslashes` read and not yet written. -/
def quoteFrom (numBackslashes : Nat) : Bytes → Bytes
  | [] => List.replicate (numBackslashes * 2) backslash
  | c :: rest =>
    if c = backslash then quoteFrom (numBackslashes + 1) rest
    else if c = quote then List.replicate (numBackslashes * 2 + 1) backslash ++ quote :: quoteFrom 0 rest
    else List.replicate numBackslashes backslash ++ c :: quoteFrom 0 rest

def writeArgument (arg : Bytes) : Bytes :=
  if arg ≠ [] ∧ arg.any needsQuotes = false then arg
  else quote :: quoteFrom 0 arg ++ [quote]

/-- The loop over the arguments. -/
def appendArguments : (firstArg : Bool) → (cmdline : Bytes) → (argv : List Bytes) → Bytes
  | _, cmdline, [] => cmdline
  | firstArg, cmdline, arg :: argv =>
    appendArguments false ((if firstArg then cmdline else cmdline ++ [space]) ++ writeArgument arg) argv

def buildWindowsCmdline (argv : List Bytes) : Bytes := appendArguments true [] argv

/-! ## Splitting -/

def isBlank (c : UInt8) : Bool := c = space || c = tab

/-- Between two arguments, or inside one: what it is so far, the backslashes not yet
    interpreted, and whether the text is quoted. -/
inductive Place where
  | between
  | inside (argument : Bytes) (numBackslashes : Nat) (quoted : Bool)

/-- One character of an argument: the argument if it ends there, and what follows. -/
def stepInside (argument : Bytes) (n : Nat) (quoted : Bool) (c : UInt8) : Option Bytes × Place :=
  if c = backslash then (none, .inside argument (n + 1) quoted)
  else if c = quote then
    if n % 2 = 0 then (none, .inside (argument ++ List.replicate (n / 2) backslash) 0 !quoted)
    else (none, .inside (argument ++ List.replicate (n / 2) backslash ++ [quote]) 0 quoted)
  else if isBlank c && !quoted then (some (argument ++ List.replicate n backslash), .between)
  else (none, .inside (argument ++ List.replicate n backslash ++ [c]) 0 quoted)

def step : Place → UInt8 → Option Bytes × Place
  | .between, c => if isBlank c then (none, .between) else stepInside [] 0 false c
  | .inside argument n quoted, c => stepInside argument n quoted c

def splitFrom : Place → Bytes → List Bytes
  | .between, [] => []
  | .inside argument n _, [] => [argument ++ List.replicate n backslash]
  | place, c :: rest => (step place c).1.toList ++ splitFrom (step place c).2 rest

/-- The name of the program: quotes are dropped and backslashes stand for themselves. -/
def programName (quoted : Bool) : Bytes → Bytes × Bytes
  | [] => ([], [])
  | c :: rest =>
    if c = quote then programName (!quoted) rest
    else if isBlank c && !quoted then ([], rest)
    else (c :: (programName quoted rest).1, (programName quoted rest).2)

/-- A command line ends at its first NUL. -/
def cString (s : Bytes) : Bytes := s.takeWhile (· ≠ 0)

/-- All arguments by the rules for arguments. -/
def splitArguments (cmdline : Bytes) : List Bytes := splitFrom .between (cString cmdline)

/-- The program name by its own rules, and the arguments behind it. -/
def splitCommandLine (cmdline : Bytes) : List Bytes :=
  match cString cmdline with
  | [] => []
  | c :: rest => (programName false (c :: rest)).1 :: splitFrom .between (programName false (c :: rest)).2

/-! ## Runs of characters -/

variable {arg name rest s : Bytes} {n m : Nat} {quoted : Bool} {argv : List Bytes}

-- The equations of the definitions are derived here, once for all proofs.
section
attribute [local simp] quoteFrom appendArguments step splitFrom programName splitCommandLine
end

theorem splitFrom_backslashes (k : Nat) : splitFrom (.inside arg n quoted) (List.replicate k backslash ++ rest) =
    splitFrom (.inside arg (n + k) quoted) rest := by
  induction k generalizing n with
  | zero => rfl
  | succ k ih =>
    rw [List.replicate_succ, List.cons_append, splitFrom, step, stepInside, if_pos rfl]
    simp only [Option.toList_none, List.nil_append]
    rw [ih]
    congr 2
    omega

theorem splitFrom_quote_even : splitFrom (.inside arg (m * 2) quoted) (quote :: rest) =
    splitFrom (.inside (arg ++ List.replicate m backslash) 0 !quoted) rest := by
  have hstep : stepInside arg (m * 2) quoted quote = (none, .inside (arg ++ List.replicate m backslash) 0 !quoted) := by
    rw [stepInside, if_neg (by decide), if_pos rfl, if_pos (by omega), Nat.mul_div_cancel m (by omega)]
  rw [splitFrom, step, hstep]
  rfl

theorem splitFrom_quote_odd : splitFrom (.inside arg (m * 2 + 1) quoted) (quote :: rest) =
    splitFrom (.inside (arg ++ List.replicate m backslash ++ [quote]) 0 quoted) rest := by
  have hhalf : (m * 2 + 1) / 2 = m := by omega
  have hstep : stepInside arg (m * 2 + 1) quoted quote =
      (none, .inside (arg ++ List.replicate m backslash ++ [quote]) 0 quoted) := by
    rw [stepInside, if_neg (by decide), if_pos rfl, if_neg (by omega), hhalf]
  rw [splitFrom, step, hstep]
  rfl

theorem splitFrom_plain {c : UInt8} (hback : c ≠ backslash) (hquote : c ≠ quote) (hblank : isBlank c = true → quoted = true) :
    splitFrom (.inside arg n quoted) (c :: rest) =
      splitFrom (.inside (arg ++ List.replicate n backslash ++ [c]) 0 quoted) rest := by
  have hgoes : ¬ ((isBlank c && !quoted) = true) := by
    intro h
    rw [Bool.and_eq_true, Bool.not_eq_true'] at h
    exact absurd (hblank h.1) (by rw [h.2]; decide)
  have hstep : stepInside arg n quoted c = (none, .inside (arg ++ List.replicate n backslash ++ [c]) 0 quoted) := by
    rw [stepInside, if_neg hback, if_neg hquote, if_neg hgoes]
  rw [splitFrom, step, hstep]
  rfl

/-- Appending backslashes that were counted, and the text behind them. -/
theorem append_run (arg : Bytes) (n : Nat) (rest : Bytes) :
    arg ++ List.replicate (n + 1) backslash ++ rest = arg ++ List.replicate n backslash ++ backslash :: rest := by
  rw [List.replicate_succ', List.append_assoc, List.append_assoc, List.append_assoc]
  rfl

/-! ## One argument -/

/-- The quoted text and its closing quote read back as the argument. The induction carries
    the backslashes that the writer holds back and the reader has not seen. -/
theorem splitFrom_quoteFrom : splitFrom (.inside arg 0 true) (quoteFrom n s ++ quote :: rest) =
    splitFrom (.inside (arg ++ List.replicate n backslash ++ s) 0 false) rest := by
  induction s generalizing arg n with
  | nil =>
    rw [quoteFrom, splitFrom_backslashes, Nat.zero_add, splitFrom_quote_even, List.append_nil]
    rfl
  | cons c s ih =>
    rw [quoteFrom]
    by_cases hback : c = backslash
    · rw [if_pos hback, ih, append_run, hback]
    · rw [if_neg hback]
      by_cases hquote : c = quote
      · rw [if_pos hquote, List.append_assoc, List.cons_append, splitFrom_backslashes, Nat.zero_add,
          splitFrom_quote_odd, ih, hquote]
        simp only [List.replicate_zero, List.append_nil, List.append_assoc, List.singleton_append]
      · rw [if_neg hquote, List.append_assoc, List.cons_append, splitFrom_backslashes, Nat.zero_add,
          splitFrom_plain hback hquote fun _ => rfl, ih]
        simp only [List.replicate_zero, List.append_nil, List.append_assoc, List.singleton_append]

/-- Text without blanks and quotes is read as it stands. -/
theorem splitFrom_bare (arg : Bytes) (n : Nat) (hbare : s.any needsQuotes = false) : ∃ arg' n',
    arg' ++ List.replicate n' backslash = arg ++ List.replicate n backslash ++ s ∧
      ∀ rest, splitFrom (.inside arg n false) (s ++ rest) = splitFrom (.inside arg' n' false) rest := by
  induction s generalizing arg n with
  | nil => exact ⟨arg, n, (List.append_nil _).symm, fun rest => rfl⟩
  | cons c s ih =>
    rw [List.any_cons, Bool.or_eq_false_iff] at hbare
    obtain ⟨hc, hs⟩ := hbare
    by_cases hback : c = backslash
    · obtain ⟨arg', n', happ, hsplit⟩ := ih arg (n + 1) hs
      refine ⟨arg', n', ?_, fun rest => ?_⟩
      · rw [happ, append_run, hback]
      · have hrun : splitFrom (.inside arg n false) (List.replicate 1 backslash ++ (s ++ rest)) =
            splitFrom (.inside arg (n + 1) false) (s ++ rest) := splitFrom_backslashes 1
        rw [List.cons_append, hback]
        exact hrun.trans (hsplit rest)
    · have hquote : c ≠ quote := by
        rintro rfl
        exact absurd hc (by decide)
      have hblank : isBlank c = true → false = true := by
        intro h
        simp only [needsQuotes, isBlank, Bool.or_eq_false_iff, Bool.or_eq_true, decide_eq_true_eq,
          decide_eq_false_iff_not] at hc h
        rcases h with h | h
        · exact absurd h hc.1.1
        · exact absurd h hc.1.2
      obtain ⟨arg', n', happ, hsplit⟩ := ih (arg ++ List.replicate n backslash ++ [c]) 0 hs
      refine ⟨arg', n', ?_, fun rest => ?_⟩
      · rw [happ]
        simp only [List.replicate_zero, List.append_nil, List.append_assoc, List.singleton_append]
      · rw [List.cons_append, splitFrom_plain hback hquote hblank, hsplit]

/-- A written argument, at the end of the command line or in front of a space. -/
theorem splitFrom_writeArgument (arg : Bytes) : ∃ arg' n', arg' ++ List.replicate n' backslash = arg ∧
    ∀ rest, splitFrom .between (writeArgument arg ++ rest) = splitFrom (.inside arg' n' false) rest := by
  rw [writeArgument]
  split_ifs with hbare
  · obtain ⟨hne, hplain⟩ := hbare
    obtain ⟨arg', n', happ, hsplit⟩ := splitFrom_bare [] 0 hplain
    refine ⟨arg', n', happ.trans rfl, fun rest => ?_⟩
    rw [← hsplit rest]
    cases arg with
    | nil => exact absurd rfl hne
    | cons c s =>
      rw [List.any_cons, Bool.or_eq_false_iff] at hplain
      have hblank : isBlank c = false := by
        have hc := hplain.1
        rw [needsQuotes, Bool.or_eq_false_iff] at hc
        exact hc.1
      rw [List.cons_append, splitFrom, splitFrom, step, hblank]
      rfl
  · refine ⟨arg, 0, List.append_nil arg, fun rest => ?_⟩
    have hopen : splitFrom .between (quote :: (quoteFrom 0 arg ++ quote :: rest)) =
        splitFrom (.inside [] 0 true) (quoteFrom 0 arg ++ quote :: rest) := rfl
    rw [List.append_assoc, List.singleton_append, List.cons_append, hopen, splitFrom_quoteFrom]
    rfl

theorem splitFrom_end : splitFrom .between (writeArgument arg) = [arg] := by
  obtain ⟨arg', n', happ, hsplit⟩ := splitFrom_writeArgument arg
  have h := hsplit []
  rw [List.append_nil] at h
  rw [h, splitFrom, happ]

theorem splitFrom_space : splitFrom .between (writeArgument arg ++ space :: rest) = arg :: splitFrom .between rest := by
  obtain ⟨arg', n', happ, hsplit⟩ := splitFrom_writeArgument arg
  have hstep : stepInside arg' n' false space = (some arg, .between) := by
    rw [stepInside, if_neg (by decide), if_neg (by decide), if_pos (by decide), happ]
  rw [hsplit, splitFrom, step, hstep]
  rfl

/-! ## All arguments -/

theorem appendArguments_false (cmdline : Bytes) (argv : List Bytes) :
    appendArguments false cmdline argv = cmdline ++ argv.flatMap fun arg => space :: writeArgument arg := by
  induction argv generalizing cmdline with
  | nil => exact (List.append_nil cmdline).symm
  | cons arg argv ih =>
    rw [appendArguments, ih, List.flatMap_cons, if_neg (by decide)]
    simp only [List.append_assoc, List.cons_append, List.nil_append]

/-- The first argument, and each further one behind a space. -/
theorem buildWindowsCmdline_cons (arg : Bytes) (argv : List Bytes) :
    buildWindowsCmdline (arg :: argv) = writeArgument arg ++ argv.flatMap fun arg => space :: writeArgument arg := by
  rw [buildWindowsCmdline, appendArguments, appendArguments_false, if_pos rfl, List.nil_append]

theorem splitFrom_arguments (arg : Bytes) (argv : List Bytes) :
    splitFrom .between (writeArgument arg ++ argv.flatMap fun arg => space :: writeArgument arg) = arg :: argv := by
  induction argv generalizing arg with
  | nil => rw [List.flatMap_nil, List.append_nil, splitFrom_end]
  | cons next argv ih => rw [List.flatMap_cons, List.cons_append, splitFrom_space, ih]

/-! ## The program name -/

/-- Without quotes inside and without a backslash at the end, a name is quoted as it is. -/
theorem quoteFrom_name (hquote : quote ∉ name) (hlast : name.getLast? ≠ some backslash) (hstart : name = [] → n = 0) :
    quoteFrom n name = List.replicate n backslash ++ name := by
  induction name generalizing n with
  | nil => rw [hstart rfl]; rfl
  | cons c name ih =>
    have hc : c ≠ quote := fun h => hquote (h ▸ List.mem_cons_self)
    have hname : quote ∉ name := fun h => hquote (List.mem_cons_of_mem c h)
    rw [quoteFrom]
    by_cases hback : c = backslash
    · have hne : name ≠ [] := by
        rintro rfl
        exact hlast (congrArg some hback)
      have htail : name.getLast? ≠ some backslash := by
        intro h
        rw [List.getLast?_cons, h] at hlast
        exact hlast rfl
      rw [if_pos hback, ih hname htail fun h => absurd h hne, hback]
      exact append_run [] n name
    · have htail : name.getLast? ≠ some backslash := by
        intro h
        rw [List.getLast?_cons, h] at hlast
        exact hlast rfl
      rw [if_neg hback, if_neg hc, ih hname htail fun _ => rfl]
      rfl

theorem programName_quoted (hquote : quote ∉ name) :
    programName true (name ++ quote :: rest) = (name ++ (programName false rest).1, (programName false rest).2) := by
  induction name with
  | nil => rw [List.nil_append, programName, if_pos rfl]; rfl
  | cons c name ih =>
    have hc : c ≠ quote := fun h => hquote (h ▸ List.mem_cons_self)
    have hgoes : ¬ ((isBlank c && !true) = true) := by simp
    rw [List.cons_append, programName, if_neg hc, if_neg hgoes, ih fun h => hquote (List.mem_cons_of_mem c h)]
    rfl

theorem programName_bare (hbare : name.any needsQuotes = false) :
    programName false (name ++ rest) = (name ++ (programName false rest).1, (programName false rest).2) := by
  induction name with
  | nil => rfl
  | cons c name ih =>
    rw [List.any_cons, Bool.or_eq_false_iff] at hbare
    have hparts := hbare.1
    rw [needsQuotes, Bool.or_eq_false_iff] at hparts
    have hgoes : ¬ ((isBlank c && !false) = true) := by
      rw [Bool.and_eq_true]
      exact fun h => Bool.false_ne_true (hparts.1.symm.trans h.1)
    rw [List.cons_append, programName, if_neg (of_decide_eq_false hparts.2), if_neg hgoes, ih hbare.2]
    rfl

theorem programName_writeArgument (hquote : quote ∉ name) (hlast : name.getLast? ≠ some backslash) :
    programName false (writeArgument name ++ rest) =
      (name ++ (programName false rest).1, (programName false rest).2) := by
  rw [writeArgument]
  split_ifs with hbare
  · exact programName_bare hbare.2
  · rw [quoteFrom_name hquote hlast fun _ => rfl, List.replicate_zero, List.nil_append, List.append_assoc,
      List.singleton_append, List.cons_append, programName, if_pos rfl]
    exact programName_quoted hquote

theorem programName_space : programName false (space :: rest) = ([], rest) := by
  rw [programName, if_neg (by decide), if_pos (by decide)]

/-! ## The round trip -/

theorem mem_quoteFrom {c : UInt8} (hc : c ∈ quoteFrom n s) : c ∈ s ∨ c = backslash ∨ c = quote := by
  induction s generalizing n with
  | nil => exact .inr (.inl (List.eq_of_mem_replicate hc))
  | cons d s ih =>
    have hrest : ∀ {k}, c ∈ quoteFrom k s → c ∈ d :: s ∨ c = backslash ∨ c = quote :=
      fun h => (ih h).imp_left (List.mem_cons_of_mem d)
    rw [quoteFrom] at hc
    split_ifs at hc with hback hquote
    · exact hrest hc
    · rcases List.mem_append.mp hc with hrun | hmem
      · exact .inr (.inl (List.eq_of_mem_replicate hrun))
      · rcases List.mem_cons.mp hmem with rfl | hmem
        · exact .inr (.inr rfl)
        · exact hrest hmem
    · rcases List.mem_append.mp hc with hrun | hmem
      · exact .inr (.inl (List.eq_of_mem_replicate hrun))
      · rcases List.mem_cons.mp hmem with rfl | hmem
        · exact .inl List.mem_cons_self
        · exact hrest hmem

theorem nulFree_writeArgument (hnul : 0 ∉ arg) : 0 ∉ writeArgument arg := by
  rw [writeArgument]
  split_ifs with hbare
  · exact hnul
  · intro hmem
    rw [List.cons_append, List.mem_cons, List.mem_append, List.mem_singleton] at hmem
    rcases hmem with h | h | h
    · exact absurd h (by decide)
    · rcases mem_quoteFrom h with h | h | h
      · exact hnul h
      · exact absurd h (by decide)
      · exact absurd h (by decide)
    · exact absurd h (by decide)

theorem nulFree_buildWindowsCmdline (hnul : ∀ arg ∈ argv, 0 ∉ arg) : 0 ∉ buildWindowsCmdline argv := by
  cases argv with
  | nil => exact List.not_mem_nil
  | cons arg argv =>
    rw [buildWindowsCmdline_cons, List.mem_append, List.mem_flatMap]
    rintro (h | ⟨next, hmem, h⟩)
    · exact nulFree_writeArgument (hnul arg List.mem_cons_self) h
    · rcases List.mem_cons.mp h with h | h
      · exact absurd h (by decide)
      · exact nulFree_writeArgument (hnul next (List.mem_cons_of_mem arg hmem)) h

theorem cString_of_nulFree (hnul : 0 ∉ s) : cString s = s := by
  have hall : ∀ c ∈ s, (c ≠ 0 : Bool) = true := by
    intro c hc
    exact decide_eq_true fun h => hnul (h ▸ hc)
  have hrun : (s ++ []).takeWhile _ = s ++ [].takeWhile _ := List.takeWhile_append_of_pos hall
  rw [List.append_nil, List.takeWhile_nil, List.append_nil] at hrun
  exact hrun

/-- Splitting a built command line gives back the arguments, whether the program name is
    split off by the rules for arguments or by its own. -/
theorem commandLine_round_trip {argv : List Bytes} (hnul : ∀ arg ∈ argv, 0 ∉ arg)
    (hprogram : ∀ name ∈ argv.head?, quote ∉ name ∧ name.getLast? ≠ some backslash) :
    splitArguments (buildWindowsCmdline argv) = argv ∧ splitCommandLine (buildWindowsCmdline argv) = argv := by
  have hstring := cString_of_nulFree (nulFree_buildWindowsCmdline hnul)
  cases argv with
  | nil => exact ⟨rfl, rfl⟩
  | cons name argv =>
    obtain ⟨hquote, hlast⟩ := hprogram name rfl
    refine ⟨?_, ?_⟩
    · rw [splitArguments, hstring, buildWindowsCmdline_cons, splitFrom_arguments]
    · have hname : programName false (writeArgument name ++ argv.flatMap fun arg => space :: writeArgument arg) = _ :=
        programName_writeArgument hquote hlast
      rw [splitCommandLine, hstring, buildWindowsCmdline_cons]
      have hne : writeArgument name ++ (argv.flatMap fun arg => space :: writeArgument arg) ≠ [] := by
        rw [writeArgument]
        split_ifs with hbare
        · exact fun h => hbare.1 (List.append_eq_nil_iff.mp h).1
        · exact List.cons_ne_nil _ _
      generalize writeArgument name ++ (argv.flatMap fun arg => space :: writeArgument arg) = line at hname hne ⊢
      cases line with
      | nil => exact absurd rfl hne
      | cons c line =>
        simp only [hname]
        cases argv with
        | nil => simp only [List.flatMap_nil, programName, List.append_nil, splitFrom]
        | cons next argv =>
          rw [List.flatMap_cons, List.cons_append, programName_space, splitFrom_arguments, List.append_nil]

theorem commandLine_round_trip_quotes :
    splitArguments (buildWindowsCmdline [[99], [97, 32, 92], [92, 34], []]) = [[99], [97, 32, 92], [92, 34], []] ∧
      splitCommandLine (buildWindowsCmdline [[99], [97, 32, 92], [92, 34], []]) = [[99], [97, 32, 92], [92, 34], []] :=
  commandLine_round_trip (by decide) (by decide)

end Luma.CommandLine
