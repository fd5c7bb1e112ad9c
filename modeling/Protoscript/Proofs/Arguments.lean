import Protoscript.CommandLine
import Protoscript.Proofs.Numerals

/-! # The grammar of the arguments

The arguments are words: a limit is two of them, the option and its value, and a path is one.  The
words read so far decide how the reading goes on (`parse_flatMap`), and where no word can follow
there is either nothing left, a call for help, or the argument that offends
(`exists_reading_behind`).  So the answer to a list of arguments is that of its one reading:
`request_eq_iff`. -/

set_option autoImplicit false

namespace Protoscript.CommandLine

/-- A limit, with its value as a text and as a number, or a path. -/
inductive Word
  | limit (text : String) (count : Nat)
  | path (name : String)

namespace Word

/-- The arguments that the word is. -/
def args : Word → List String
  | limit text _ => ["--max-depth", text]
  | path name => [name]

/-- The value of a limit may be any text that is a count; a path does not look like an option. -/
def Fits : Word → Prop
  | limit text count => Numeral.IsCount text.toList count
  | path name => name.toList.head? ≠ some '-'

def count? : Word → Option Nat
  | limit _ count => some count
  | path _ => none

def path? : Word → Option String
  | limit .. => none
  | path name => some name

end Word

def paths (words : List Word) : List String := words.filterMap Word.path?

/-- The limit given last. -/
def lastCount (words : List Word) : Option Nat := (words.filterMap Word.count?).getLast?

/-- The arguments are the words, which have at most one path among them. -/
structure Reads (args : List String) (words : List Word) : Prop where
  spelled : args = words.flatMap Word.args
  fits : ∀ w ∈ words, w.Fits
  onePath : (paths words).length ≤ 1

/-- The first of the arguments, or their end, fits nowhere, and why.  The path is the one given
before them. -/
inductive Offends (path : Option String) : List String → ArgumentError → Prop
  | noLimitValue : Offends path ["--max-depth"] .noLimitValue
  | badLimit {text : String} {rest : List String}
      (uncounted : ¬ ∃ n, Numeral.IsCount text.toList n) :
      Offends path ("--max-depth" :: text :: rest) (.badLimit text)
  | unknownOption {arg : String} {rest : List String} (dash : arg.toList.head? = some '-')
      (unknown : arg ∉ ["-h", "--help", "--max-depth"]) :
      Offends path (arg :: rest) (.unknownOption arg)
  | unexpected {arg : String} {rest : List String} (plain : arg.toList.head? ≠ some '-')
      (second : path ≠ none) : Offends path (arg :: rest) (.unexpected arg)
  | noPath (missing : path = none) : Offends path [] .noPath

/-- What the arguments behind the words make of them. -/
inductive Ends (words : List Word) : List String → Except ArgumentError Request → Prop
  | run {name : String} (only : paths words = [name]) :
      Ends words [] (.ok (.run name (lastCount words)))
  | help {arg : String} {rest : List String} (asks : arg = "-h" ∨ arg = "--help") :
      Ends words (arg :: rest) (.ok .help)
  | error {back : List String} {e : ArgumentError} (offends : Offends (paths words).head? back e) :
      Ends words back (.error e)

/-! ## One step of the reading -/

section
variable {path : Option String} {depth : Option Nat} {rest : List String}

theorem parse_limit {text : String} {n : Nat} (counts : Numeral.IsCount text.toList n) :
    parse path depth ("--max-depth" :: text :: rest) = parse path (some n) rest := by
  rw [parse, Numeral.count?_eq_some_iff.mpr counts]

/-- Any argument but the option is read by its look. -/
theorem parse_cons {arg : String} (other : arg ≠ "--max-depth") :
    parse path depth (arg :: rest) =
      if arg = "-h" ∨ arg = "--help" then .ok .help
      else if arg.toList.head? = some '-' then .error (.unknownOption arg)
      else if path = none then parse (some arg) depth rest
      else .error (.unexpected arg) := by
  cases path <;> rw [parse] <;> simp_all

theorem ne_of_plain {name : String} (plain : name.toList.head? ≠ some '-') :
    name ≠ "--max-depth" ∧ ¬ (name = "-h" ∨ name = "--help") := by
  constructor
  · rintro rfl
    exact plain rfl
  · rintro (rfl | rfl) <;> exact plain rfl

theorem parse_path {name : String} (plain : name.toList.head? ≠ some '-') :
    parse none depth (name :: rest) = parse (some name) depth rest := by
  obtain ⟨noLimit, noHelp⟩ := ne_of_plain plain
  rw [parse_cons noLimit, if_neg noHelp, if_neg plain, if_pos rfl]

theorem parse_help {arg : String} (asks : arg = "-h" ∨ arg = "--help") :
    parse path depth (arg :: rest) = .ok .help := by
  have other : arg ≠ "--max-depth" := by rcases asks with rfl | rfl <;> decide
  rw [parse_cons other, if_pos asks]

theorem parse_of_offends {back : List String} {e : ArgumentError}
    (offends : Offends path back e) : parse path depth back = .error e := by
  cases offends with
  | noLimitValue => rw [parse]
  | badLimit uncounted => rw [parse, Numeral.count?_eq_none_iff.mpr uncounted]
  | unknownOption dash unknown =>
    simp only [List.mem_cons, List.not_mem_nil, or_false, not_or] at unknown
    rw [parse_cons unknown.2.2, if_neg (by tauto), if_pos dash]
  | unexpected plain second =>
    obtain ⟨noLimit, noHelp⟩ := ne_of_plain plain
    rw [parse_cons noLimit, if_neg noHelp, if_neg plain, if_neg second]
  | noPath missing => rw [missing, parse]

end

/-! ## The whole reading -/

theorem paths_concat_limit (words : List Word) (text : String) (count : Nat) :
    paths (words ++ [.limit text count]) = paths words := by
  simp [paths, List.filterMap_append, Word.path?]

theorem paths_concat_path (words : List Word) (name : String) :
    paths (words ++ [.path name]) = paths words ++ [name] := by
  simp [paths, List.filterMap_append, Word.path?]

theorem lastCount_limit (text : String) (count : Nat) (words : List Word) :
    lastCount (.limit text count :: words) = (lastCount words).or (some count) := by
  have more : (Word.limit text count :: words).filterMap Word.count? =
      count :: words.filterMap Word.count? := rfl
  rw [lastCount, more, List.getLast?_cons, lastCount]
  cases (words.filterMap Word.count?).getLast? <;> rfl

/-- Words are read away, and leave the path and the last limit given. -/
theorem parse_flatMap {words : List Word} {path : Option String} {depth : Option Nat}
    {back : List String} (fits : ∀ w ∈ words, w.Fits)
    (onePath : (path.toList ++ paths words).length ≤ 1) :
    parse path depth (words.flatMap Word.args ++ back) =
      parse (path.or (paths words).head?) ((lastCount words).or depth) back := by
  induction words generalizing path depth with
  | nil => simp [paths, lastCount]
  | cons w words ih =>
    have here := fits w (List.mem_cons_self ..)
    have later : ∀ w ∈ words, w.Fits := fun w member => fits w (List.mem_cons_of_mem _ member)
    cases w with
    | limit text count =>
      have step : parse path depth ((Word.limit text count :: words).flatMap Word.args ++ back) =
          parse path (some count) (words.flatMap Word.args ++ back) := parse_limit here
      rw [step, ih later onePath, lastCount_limit, Option.or_assoc]
      rfl
    | path name =>
      obtain ⟨rfl, noMore⟩ : path = none ∧ paths words = [] := by
        have size : (paths (.path name :: words)).length = (paths words).length + 1 := rfl
        rw [List.length_append, size] at onePath
        exact ⟨Option.toList_eq_nil_iff.mp (List.eq_nil_of_length_eq_zero (by omega)),
          List.eq_nil_of_length_eq_zero (by omega)⟩
      have step : parse none depth ((Word.path name :: words).flatMap Word.args ++ back) =
          parse (some name) depth (words.flatMap Word.args ++ back) := parse_path here
      rw [step, ih later (by simp [noMore])]
      rfl

theorem request_append {front back : List String} {words : List Word} (reads : Reads front words) :
    request (front ++ back) = parse (paths words).head? (lastCount words) back := by
  have onePath : ((none : Option String).toList ++ paths words).length ≤ 1 := reads.onePath
  rw [request, reads.spelled, parse_flatMap reads.fits onePath, Option.none_or, Option.or_none]

theorem request_of_ends {front back : List String} {words : List Word}
    {answer : Except ArgumentError Request} (reads : Reads front words)
    (ends : Ends words back answer) : request (front ++ back) = answer := by
  rw [request_append reads]
  cases ends with
  | run only => rw [only, List.head?_cons, parse]
  | help asks => exact parse_help asks
  | error offends => exact parse_of_offends offends

theorem Reads.nil : Reads [] [] := ⟨rfl, by simp, by simp [paths]⟩

/-- One more word behind those read, a limit or the only path. -/
theorem Reads.concat {front : List String} {words : List Word} {w : Word}
    (reads : Reads front words) (fits : w.Fits) (onePath : (paths (words ++ [w])).length ≤ 1) :
    Reads (front ++ w.args) (words ++ [w]) where
  spelled := by rw [reads.spelled]; simp
  fits v member := by
    rcases List.mem_append.mp member with early | last
    · exact reads.fits v early
    · exact List.mem_singleton.mp last ▸ fits
  onePath := onePath

/-- The reading goes on from any words until it ends. -/
theorem exists_reading_behind {front : List String} {words : List Word} (reads : Reads front words)
    (back : List String) :
    ∃ before behind words answer, front ++ back = before ++ behind ∧ Reads before words ∧
      Ends words behind answer := by
  match back with
  | [] =>
    refine ⟨front, [], words, ?_⟩
    cases given : paths words with
    | nil => exact ⟨_, rfl, reads, .error (.noPath (by rw [given]; rfl))⟩
    | cons name others =>
      have size := reads.onePath
      rw [given, List.length_cons] at size
      have single : others = [] := List.eq_nil_of_length_eq_zero (by omega)
      exact ⟨_, rfl, reads, .run (single ▸ given)⟩
  | arg :: rest =>
    by_cases asks : arg = "-h" ∨ arg = "--help"
    · exact ⟨front, _, words, _, rfl, reads, .help asks⟩
    by_cases limit : arg = "--max-depth"
    · subst limit
      match rest with
      | [] => exact ⟨front, _, words, _, rfl, reads, .error .noLimitValue⟩
      | text :: rest =>
        by_cases counted : ∃ n, Numeral.IsCount text.toList n
        · obtain ⟨n, counts⟩ := counted
          have next := reads.concat (w := .limit text n) counts (by
            rw [paths_concat_limit]; exact reads.onePath)
          obtain ⟨before, behind, words, answer, cut, found⟩ := exists_reading_behind next rest
          exact ⟨before, behind, words, answer, by simpa [Word.args] using cut, found⟩
        · exact ⟨front, _, words, _, rfl, reads, .error (.badLimit counted)⟩
    by_cases plain : arg.toList.head? = some '-'
    · refine ⟨front, _, words, _, rfl, reads, .error (.unknownOption plain ?_)⟩
      simp only [List.mem_cons, List.not_mem_nil, or_false]
      tauto
    cases given : paths words with
    | nil =>
      have next := reads.concat (w := .path arg) plain (by
        rw [paths_concat_path, given]; rfl)
      obtain ⟨before, behind, words, answer, cut, found⟩ := exists_reading_behind next rest
      exact ⟨before, behind, words, answer, by simpa [Word.args] using cut, found⟩
    | cons name others =>
      exact ⟨front, _, words, _, rfl, reads, .error (.unexpected plain (by simp [given]))⟩
termination_by back.length

/-- The answer to the arguments is what their reading comes to. -/
theorem request_eq_iff {args : List String} {answer : Except ArgumentError Request} :
    request args = answer ↔ ∃ front back words, args = front ++ back ∧ Reads front words ∧
      Ends words back answer := by
  constructor
  · intro answered
    obtain ⟨front, back, words, other, cut, reads, ends⟩ := exists_reading_behind .nil args
    have cut : args = front ++ back := cut
    have same : request args = other := cut ▸ request_of_ends reads ends
    exact ⟨front, back, words, cut, reads, (same.symm.trans answered) ▸ ends⟩
  · rintro ⟨front, back, words, rfl, reads, ends⟩
    exact request_of_ends reads ends

/-- Option pairs with any texts for values. -/
def limits (texts : List String) : List String := texts.flatMap fun text => ["--max-depth", text]

/-- A path may stand before or after option pairs, whatever their values. -/
theorem request_limits_path (texts rest : List String) {name : String}
    (plain : name.toList.head? ≠ some '-') :
    request (limits texts ++ name :: rest) = request (name :: (limits texts ++ rest)) := by
  have moved (depth : Option Nat) : parse none depth (limits texts ++ name :: rest) =
      parse (some name) depth (limits texts ++ rest) := by
    induction texts generalizing depth with
    | nil => exact parse_path plain
    | cons text texts ih =>
      have pair (back : List String) : limits (text :: texts) ++ back =
          "--max-depth" :: text :: (limits texts ++ back) := rfl
      rw [pair, pair, parse, parse]
      cases Numeral.count? text.toList with
      | none => rfl
      | some n => exact ih (some n)
  rw [request, request, moved, parse_path plain]

/-- The arguments have an exact grammar.  A path with options is answered if they are limits and
one path, with the last limit; help if it is asked for where an option may stand, behind limits
and at most one path; and otherwise the first argument that fits nowhere is the error, or that
there is no path.  It does not matter where among the option pairs the path stands. -/
theorem request_grammar (args : List String) :
    (∀ path depth, request args = .ok (.run path depth) ↔
      ∃ words, Reads args words ∧ paths words = [path] ∧ lastCount words = depth) ∧
    (request args = .ok .help ↔
      ∃ front arg back words, args = front ++ arg :: back ∧ (arg = "-h" ∨ arg = "--help") ∧
        Reads front words) ∧
    (∀ e, request args = .error e ↔
      ∃ front back words, args = front ++ back ∧ Reads front words ∧
        Offends (paths words).head? back e) ∧
    ∀ texts path rest, Word.Fits (.path path) →
      request (limits texts ++ path :: rest) = request (path :: (limits texts ++ rest)) := by
  refine ⟨fun path depth => ?_, ?_, fun e => ?_, fun texts path rest =>
    request_limits_path texts rest⟩
  · rw [request_eq_iff]
    constructor
    · rintro ⟨front, _, words, cut, reads, ⟨only⟩⟩
      rw [List.append_nil] at cut
      exact ⟨words, cut ▸ reads, only, rfl⟩
    · rintro ⟨words, reads, only, rfl⟩
      exact ⟨args, [], words, (List.append_nil args).symm, reads, .run only⟩
  · rw [request_eq_iff]
    constructor
    · rintro ⟨front, _, words, cut, reads, ends⟩
      cases ends with
      | help asks => exact ⟨front, _, _, words, cut, asks, reads⟩
    · rintro ⟨front, arg, back, words, cut, asks, reads⟩
      exact ⟨front, arg :: back, words, cut, reads, .help asks⟩
  · rw [request_eq_iff]
    constructor
    · rintro ⟨front, back, words, cut, reads, ends⟩
      cases ends with
      | error offends => exact ⟨front, back, words, cut, reads, offends⟩
    · rintro ⟨front, back, words, cut, reads, offends⟩
      exact ⟨front, back, words, cut, reads, .error offends⟩

theorem request_grammar_of_two_limits :
    request ["--max-depth", "+064", "a.br", "--max-depth", "7"] =
      .ok (.run "a.br" (some 7)) := by
  have reads : Reads ["--max-depth", "+064", "a.br", "--max-depth", "7"]
      [.limit "+064" 64, .path "a.br", .limit "7" 7] := by
    refine ⟨rfl, ?_, by decide⟩
    simp only [List.forall_mem_cons, List.not_mem_nil, false_imp_iff, implies_true, and_true]
    have plain : Word.Fits (.path "a.br") := by unfold Word.Fits; decide
    exact ⟨.plus ⟨by decide, List.all_eq_true.mp rfl, rfl⟩ (by decide), plain,
      .plain ⟨by decide, List.all_eq_true.mp rfl, rfl⟩ (by decide)⟩
  exact ((request_grammar _).1 "a.br" (some 7)).mpr ⟨_, reads, rfl, rfl⟩

end Protoscript.CommandLine
