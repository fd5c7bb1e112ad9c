import Mathlib.Data.List.SplitBy
import Protoscript.Proofs.Grammar.Programs
import Protoscript.Proofs.Places.Reading
import Protoscript.Proofs.Recovery.Reading

/-! # Errors of one definition beside those of the others

After an error, reading goes on at the next `func`.  A token list is cut before every `func`, and
each chunk is read on its own.  A chunk that ends where a name is missing takes the next `func` for
that name, and the chunk that this `func` opens is passed over; all other chunks are read in the
list as they are on their own (`Definition.errors_by_chunk`). -/

set_option autoImplicit false

namespace Protoscript

open Reader

/-- A token list is cut before every `func`. -/
def chunks (tokens : List Token) : List (List Token) :=
  tokens.splitBy fun _ t => t.kind ≠ .keyword .func

/-- A `func` with what follows it, up to the next one. -/
def IsChunk (chunk : List Token) : Prop :=
  ∃ p body, chunk = Keyword.func.token p :: body ∧ ∀ t ∈ body, ¬ t.kind.Stops

theorem not_func_of_isChain {t : Token} {body : List Token}
    (chain : (t :: body).IsChain fun _ u => decide (u.kind ≠ .keyword .func) = true) :
    ∀ u ∈ body, u.kind ≠ .keyword .func := by
  induction body generalizing t with
  | nil => exact nofun
  | cons u body ih =>
    obtain ⟨first, later⟩ := List.isChain_cons_cons.mp chain
    rintro v (_ | ⟨_, mem⟩)
    · exact of_decide_eq_true first
    · exact ih later v mem

/-- Where each list but the first is cut off before a `func`, all but the first start with one. -/
theorem starts_of_isChain {first : List Token} {cs : List (List Token)}
    (cuts : (first :: cs).IsChain fun a b => ∃ (ha : a ≠ []) (hb : b ≠ []),
      (fun _ t : Token => decide (t.kind ≠ .keyword .func)) (a.getLast ha) (b.head hb) = false) :
    ∀ c ∈ cs, ∃ p body, c = Keyword.func.token p :: body := by
  induction cs generalizing first with
  | nil => exact nofun
  | cons c cs ih =>
    obtain ⟨⟨_, some, cut⟩, later⟩ := List.isChain_cons_cons.mp cuts
    rintro d (_ | ⟨_, mem⟩)
    · obtain ⟨⟨k, p⟩, body, rfl⟩ := List.exists_cons_of_ne_nil some
      obtain rfl : k = .keyword .func := not_not.mp (of_decide_eq_false cut)
      exact ⟨p, body, rfl⟩
    · exact ih later d mem

theorem isChunk_of_mem_chunks {tokens : List Token} (free : ∀ t ∈ tokens, t.kind ≠ .eof)
    (starts : tokens.head?.map Token.kind = some (.keyword .func)) :
    ∀ chunk ∈ chunks tokens, IsChunk chunk := by
  have flat : (chunks tokens).flatten = tokens := List.flatten_splitBy _ _
  have cuts :=
    List.isChain_getLast_head_splitBy (fun _ t => decide (t.kind ≠ .keyword .func)) tokens
  intro chunk mem
  have inside := List.isChain_of_mem_splitBy mem
  obtain ⟨p, body, rfl⟩ : ∃ p body, chunk = Keyword.func.token p :: body := by
    have some := List.ne_nil_of_mem_splitBy mem
    rw [← flat] at starts
    change List.IsChain _ (chunks tokens) at cuts
    generalize chunks tokens = cs at starts cuts mem
    cases mem with
    | head later =>
      obtain ⟨⟨k, p⟩, body, rfl⟩ := List.exists_cons_of_ne_nil some
      obtain rfl : k = .keyword .func := Option.some.inj starts
      exact ⟨p, body, rfl⟩
    | tail first mem => exact starts_of_isChain cuts chunk mem
  refine ⟨p, body, rfl, fun u inBody stops => ?_⟩
  rcases stops with start | ends
  · exact not_func_of_isChain inside u inBody start
  · refine free u ?_ ends
    rw [← flat]
    exact List.mem_flatten_of_mem mem (List.mem_cons_of_mem _ inBody)

namespace Definition

/-- How many errors are reported for a token list. -/
def errorCount (tokens : List Token) : Nat :=
  match ofTokens tokens with
  | .ok _ => 0
  | .error errors => errors.length

def fails (tokens : List Token) : Bool := errorCount tokens ≠ 0

/-- Whether the reading of a chunk takes the `func` behind it for the name that it wants: a `func`
alone is an error, but then it is not heard of. -/
def takesNext (chunk : List Token) : Bool :=
  errorCount (chunk ++ [Keyword.func.token .start]) = errorCount chunk

/-- The chunks that are read. -/
def heard : List (List Token) → List (List Token)
  | [] => []
  | [chunk] => [chunk]
  | chunk :: next :: later =>
    if takesNext chunk then chunk :: heard later else chunk :: heard (next :: later)

/-- The chunks whose `func` the chunk before them has taken for a name. -/
def passedOver : List (List Token) → List (List Token)
  | [] => []
  | [_] => []
  | chunk :: next :: later =>
    if takesNext chunk then next :: passedOver later else passedOver (next :: later)

/-! ## The reading of one chunk -/

/-- From the cursor on there are `n` errors. -/
def Counts (c : Cursor) (n : Nat) : Prop :=
  ∀ fuel count, 16 * c.rest.length ≤ fuel → c.rest.length < count →
    (readAll fuel count c).1.length = n

theorem counts_end {c : Cursor} (ends : c.kind = .eof) : Counts c 0 := by
  intro fuel count _ steps
  obtain ⟨count, rfl⟩ := Nat.exists_eq_add_one_of_ne_zero (Nat.ne_zero_of_lt steps)
  rw [readAll, ends]
  rfl

theorem definition_abreast {s s' : Cursor} (same : s.SameStop s') {p : Position}
    {body : List Token} {fuel other : Nat} (enough : 16 * body.length + 1 ≤ fuel)
    (enough' : 16 * body.length + 1 ≤ other) :
    SameOutcome s s' body (definition fuel (s.before (Keyword.func.token p :: body)))
      (definition other (s'.before (Keyword.func.token p :: body))) := by
  rw [definition, definition, Cursor.before_cons, Cursor.before_cons, position_bind, position_bind,
    expect_push, expect_push]
  refine Abreast.identifier same ?_
  rintro name _ left rfl
  simp only [List.length_cons] at enough enough'
  exact (readsAbreast same fuel).function name p left other (by omega) (by omega)

/-- Where the reading of a definition ends that is cut off behind its chunk. -/
inductive ChunkEnd
  | whole
  | stopped
  | passed
deriving DecidableEq

/-- The reading of a definition with `body` behind its `func`, and then the stop `s`, has ended with
the chunk, before the end of the chunk, or past the stop. -/
inductive Ended (s : Cursor) (body : List Token) :
    ChunkEnd → EStateM.Result ReadStop Cursor Definition → Prop
  | whole (d : Definition) : Ended s body .whole (.ok d s)
  | trailing (d : Definition) {left : List Token} (shorter : left <:+ body) (more : left ≠ []) :
    Ended s body .stopped (.ok d (s.before left))
  | refused (d : Diagnostic) {left : List Token} (shorter : left <:+ body) :
    Ended s body .stopped (.error (.refused d) (s.before left))
  | passed (d : Diagnostic) : Ended s body .passed (.error (.refused d) s.advance)

theorem Ended.eq_whole {s : Cursor} {body : List Token} {e : ChunkEnd} {d : Definition}
    (ended : Ended s body e (.ok d s)) : e = .whole := by
  generalize run : EStateM.Result.ok d s = r at ended
  cases ended with
  | whole => rfl
  | @trailing _ left _ more =>
    refine absurd (List.length_eq_zero_iff.mp ?_) more
    have := congrArg (·.rest.length) (EStateM.Result.ok.inj run).2
    rw [Cursor.length_before] at this
    omega
  | refused | passed => cases run

/-- The end told from how much is left. -/
def endOf (s : Cursor) : EStateM.Result ReadStop Cursor Definition → ChunkEnd
  | .ok _ c => if c.rest.length = s.rest.length then .whole else .stopped
  | .error _ c => if c.rest.length < s.rest.length then .passed else .stopped

theorem ended_of_sameOutcome {s s' : Cursor} {body : List Token}
    {r r' : EStateM.Result ReadStop Cursor Definition} (empty : s.rest = [] ↔ s'.rest = [])
    (same : SameOutcome s s' body r r') : Ended s' body (endOf s r) r' := by
  cases same with
  | @ok d left shorter =>
    by_cases nothing : left = []
    · obtain rfl := nothing
      rw [endOf, if_pos (by simp)]
      exact .whole d
    · have := List.length_pos_iff.mpr nothing
      rw [endOf, if_neg (by simp; omega)]
      exact .trailing d shorter nothing
  | refused d shorter =>
    rw [endOf, if_neg (by simp)]
    exact .refused d shorter
  | passed d =>
    obtain ⟨_ | ⟨t, rest⟩, ending⟩ := s
    · -- At the end there is nothing to pass over.
      have here : s'.advance = s'.before [] := by
        obtain ⟨rest, ending⟩ := s'
        obtain rfl : rest = [] := empty.mp rfl
        rfl
      rw [endOf, if_neg (by simp [Cursor.advance]), here]
      exact .refused d (List.nil_suffix)
    · rw [endOf, if_pos (by simp [Cursor.advance])]
      exact .passed d

/-- With any fuel that is enough, the first definition of a chunk before a stop ends so. -/
def Ends (s : Cursor) (chunk : List Token) (e : ChunkEnd) : Prop :=
  ∀ fuel, 16 * chunk.length ≤ fuel → Ended s chunk.tail e (definition fuel (s.before chunk))

/-- Before two stops of one kind a chunk ends alike. -/
theorem exists_ends {s s' : Cursor} {chunk : List Token} (isChunk : IsChunk chunk)
    (same : s.SameStop s') (empty : s.rest = [] ↔ s'.rest = []) :
    ∃ e, Ends s chunk e ∧ Ends s' chunk e := by
  obtain ⟨p, body, rfl, -⟩ := isChunk
  have self : s.SameStop s := ⟨rfl, rfl, same.stops⟩
  have least := Nat.le_refl (16 * body.length + 1)
  refine ⟨endOf s (definition (16 * body.length + 1) (s.before (Keyword.func.token p :: body))),
    fun fuel enough => ?_, fun fuel enough => ?_⟩
  all_goals
    have enough : 16 * body.length + 1 ≤ fuel := by
      rw [List.length_cons] at enough
      omega
  · exact ended_of_sameOutcome Iff.rfl (definition_abreast self least enough)
  · exact ended_of_sameOutcome empty (definition_abreast same least enough)

/-- Where reading goes on after a chunk before the stop `s`. -/
def ChunkEnd.next (s : Cursor) : ChunkEnd → Cursor
  | .passed => s.advance.recover
  | _ => s

/-- How many errors the reading of a chunk brings. -/
def ChunkEnd.errors : ChunkEnd → Nat
  | .whole => 0
  | _ => 1

theorem recover_before {s : Cursor} (stops : s.kind.Stops) {left : List Token}
    (free : ∀ t ∈ left, ¬ t.kind.Stops) : (s.before left).recover = s := by
  have goesOn : ∀ t ∈ left, decide (t.kind ≠ .keyword .func ∧ t.kind ≠ .eof) = true := by
    intro t mem
    have own := free t mem
    exact decide_eq_true (not_or.mp own)
  have here :
      s.rest.dropWhile (fun t => decide (t.kind ≠ .keyword .func ∧ t.kind ≠ .eof)) = s.rest := by
    obtain ⟨_ | ⟨t, rest⟩, ending⟩ := s
    · rfl
    · have stops : t.kind.Stops := stops
      exact List.dropWhile_cons_of_neg (by rcases stops with stop | stop <;> simp [stop])
  rw [Cursor.recover, Cursor.before, List.dropWhile_append_of_pos goesOn, here]

theorem length_recover_le (c : Cursor) : c.recover.rest.length ≤ c.rest.length :=
  (List.dropWhile_suffix _).length_le

theorem readAll_func {fuel count : Nat} {c : Cursor} (here : c.kind = .keyword .func) :
    readAll fuel (count + 1) c = match definition fuel c with
      | .ok d c =>
        let later := readAll fuel count c
        (later.1, d :: later.2)
      | .error stop c =>
        let later := readAll fuel count c.recover
        (stop.diagnostic c :: later.1, later.2) := by
  rw [readAll]
  split
  · next ends => cases here.symm.trans ends
  · rfl
  · next _ other => exact absurd here other

theorem readAll_other {fuel count : Nat} {c : Cursor} (here : ¬ c.kind.Stops) :
    readAll fuel (count + 1) c =
      let later := readAll fuel count c.recover
      (⟨.expectedDefinition c.kind, c.position⟩ :: later.1, later.2) := by
  rw [readAll]
  split
  · next ends => exact absurd (.inr ends) here
  · next starts => exact absurd (.inl starts) here
  · rfl

/-- The errors from a chunk on are its own and those from where reading goes on. -/
theorem Ends.counts {s : Cursor} {chunk : List Token} {e : ChunkEnd} {n : Nat}
    (isChunk : IsChunk chunk) (stops : s.kind.Stops) (ends : Ends s chunk e)
    (later : Counts (e.next s) n) : Counts (s.before chunk) (n + e.errors) := by
  obtain ⟨p, body, rfl, free⟩ := isChunk
  intro fuel count enough steps
  obtain ⟨count, rfl⟩ := Nat.exists_eq_add_one_of_ne_zero (Nat.ne_zero_of_lt steps)
  simp only [Cursor.length_before, List.length_cons] at enough steps
  have read := ends fuel (by rw [List.length_cons]; omega)
  rw [readAll_func rfl]
  generalize definition fuel _ = r at read
  cases read with
  | whole d =>
    have later : Counts s n := later
    exact later fuel count (by omega) (by omega)
  | @trailing d left shorter more =>
    -- What is left of the chunk is one more error.
    have later : Counts s n := later
    obtain ⟨t, left, rfl⟩ := List.exists_cons_of_ne_nil more
    have free := fun u mem => free u (shorter.subset mem)
    have := shorter.length_le
    rw [List.tail_cons, List.length_cons] at this
    obtain ⟨count, rfl⟩ : ∃ m, count = m + 1 := ⟨count - 1, by omega⟩
    have other : ¬ (s.before (t :: left)).kind.Stops := free t List.mem_cons_self
    dsimp only
    rw [readAll_other other, recover_before stops free, List.length_cons,
      later fuel count (by omega) (by omega)]
    rfl
  | @refused d left shorter =>
    have later : Counts s n := later
    dsimp only
    rw [recover_before stops fun t mem => free t (shorter.subset mem), List.length_cons,
      later fuel count (by omega) (by omega)]
    rfl
  | passed d =>
    have later : Counts s.advance.recover n := later
    have shorter : s.advance.recover.rest.length ≤ s.rest.length :=
      (length_recover_le _).trans (by simp [Cursor.advance])
    dsimp only
    rw [List.length_cons, later fuel count (by omega) (by omega)]
    rfl

/-! ## Chunks on their own -/

theorem ofTokens_ne_noErrors (tokens : List Token) : ofTokens tokens ≠ .error [] := by
  intro none
  rw [ofTokens] at none
  generalize readAll _ _ _ = r at none
  obtain ⟨_ | ⟨e, errors⟩, ds⟩ := r <;> cases none

theorem errorCount_eq_zero_iff {tokens : List Token} :
    errorCount tokens = 0 ↔ ∃ ds, ofTokens tokens = .ok ds := by
  have some := ofTokens_ne_noErrors tokens
  rw [errorCount]
  generalize ofTokens tokens = r at some ⊢
  cases r with
  | ok ds => simp
  | error errors =>
    refine ⟨fun none => ?_, nofun⟩
    obtain rfl := List.length_eq_zero_iff.mp none
    exact absurd rfl some

theorem errorCount_of_counts {tokens : List Token} {n : Nat}
    (counts : Counts (Cursor.ofTokens tokens) n) : errorCount tokens = n := by
  have short := Cursor.length_ofTokens_le tokens
  have count := counts (readingFuel tokens.length) (tokens.length + 1)
    (by rw [readingFuel]; omega) (by omega)
  rw [errorCount, ofTokens]
  generalize readAll _ _ _ = r at count
  obtain ⟨errors, ds⟩ := r
  cases errors with
  | nil => exact count
  | cons => exact count

theorem start_concat (front : List Token) {t : Token} (more : t.kind ≠ .eof) :
    Cursor.ofTokens (front ++ [t]) = Cursor.before ⟨[], t.position⟩ (front ++ [t]) := by
  rw [Cursor.ofTokens, List.getLast?_concat]
  simp [more, Cursor.before]

theorem before_cancel {s : Cursor} {ts us : List Token} (same : s.before ts = s.before us) :
    ts = us := List.append_cancel_right (congrArg Cursor.rest same)

theorem chunk_free {chunk : List Token} (isChunk : IsChunk chunk) :
    ∀ t ∈ chunk, t.kind ≠ .eof := by
  obtain ⟨p, body, rfl, free⟩ := isChunk
  rintro t (_ | ⟨_, mem⟩)
  · nofun
  · exact fun ends => free t mem (.inr ends)

/-- A chunk is read to its end, wherever it stands, just if it is fine on its own: then it renders
a definition, and renderings are read whatever comes after them. -/
theorem ends_whole_iff {s : Cursor} {chunk : List Token} {e : ChunkEnd} (isChunk : IsChunk chunk)
    (ends : Ends s chunk e) : e = .whole ↔ ∃ ds, ofTokens chunk = .ok ds := by
  have all : beforeEnd chunk = chunk :=
    List.takeWhile_eq_self_iff.mpr (by simpa using chunk_free isChunk)
  have read := ends (16 * (s.before chunk).rest.length) (by rw [Cursor.length_before]; omega)
  simp only [ofTokens_eq_ok_iff, all]
  constructor
  · rintro rfl
    generalize run : definition _ _ = r at read
    cases read with
    | whole d =>
      obtain ⟨ts, same, _, q, us, rfl, place, rendered⟩ := takes_definition _ _ _ _ run
      obtain rfl := before_cancel same
      exact ⟨[d], by simpa using Renders.moreDefinitions (q := q) place rendered .noDefinitions⟩
  · rintro ⟨ds, rendered⟩
    obtain ⟨p, body, rfl, free⟩ := isChunk
    cases rendered with
    | @moreDefinitions d ds _ q ts us place function later =>
      have last : us = [] := by
        cases later with
        | noDefinitions => rfl
        | @moreDefinitions _ _ q =>
          exact absurd (.inl rfl) (free (Keyword.func.token q) (by simp))
      obtain rfl := place
      obtain rfl := last
      rw [List.append_nil, Cursor.before_cons, Cursor.before_cons] at read
      have enough : 16 * (s.before ts).rest.length + 1 ≤ 16 *
          (((s.before ts).push (nameToken d.name q)).push
            (Keyword.func.token d.position)).rest.length := by
        rw [Cursor.length_push, Cursor.length_push]
        omega
      rw [definition_of_renders function enough] at read
      exact read.eq_whole

theorem exists_start {tokens : List Token} (free : ∀ t ∈ tokens, t.kind ≠ .eof) :
    ∃ p, Cursor.ofTokens tokens = Cursor.before ⟨[], p⟩ tokens := by
  rcases tokens.eq_nil_or_concat with rfl | ⟨front, last, rfl⟩
  · exact ⟨.start, rfl⟩
  · rw [List.concat_eq_append] at free ⊢
    exact ⟨last.position, start_concat front (free last (by simp))⟩

/-- The reading of a chunk brings as many errors as the chunk alone, wherever it stands. -/
theorem errors_of_ends {s : Cursor} {chunk : List Token} {e : ChunkEnd} (isChunk : IsChunk chunk)
    (ends : Ends s chunk e) : e.errors = errorCount chunk := by
  obtain ⟨p, start⟩ := exists_start (chunk_free isChunk)
  have atEnd : Cursor.SameStop ⟨[], p⟩ ⟨[], p⟩ := ⟨rfl, rfl, .inr rfl⟩
  obtain ⟨alone, endsAlone, -⟩ := exists_ends isChunk atEnd Iff.rfl
  have count : errorCount chunk = alone.errors := by
    apply errorCount_of_counts
    rw [start, ← Nat.zero_add alone.errors]
    refine endsAlone.counts isChunk (.inr rfl) ?_
    cases alone <;> exact counts_end rfl
  have same : e = .whole ↔ alone = .whole :=
    (ends_whole_iff isChunk ends).trans (ends_whole_iff isChunk endsAlone).symm
  rw [count]
  cases e <;> cases alone <;> simp_all [ChunkEnd.errors]

theorem counts_chunk {chunk : List Token} (isChunk : IsChunk chunk) (p : Position) :
    Counts (Cursor.before ⟨[], p⟩ chunk) (errorCount chunk) := by
  have atEnd : Cursor.SameStop ⟨[], p⟩ ⟨[], p⟩ := ⟨rfl, rfl, .inr rfl⟩
  obtain ⟨e, ends, -⟩ := exists_ends isChunk atEnd Iff.rfl
  rw [← errors_of_ends isChunk ends, ← Nat.zero_add e.errors]
  refine ends.counts isChunk (.inr rfl) ?_
  cases e <;> exact counts_end rfl

theorem errorCount_alike {ts us : List Token} (same : SameKinds ts us) :
    errorCount ts = errorCount us := by
  have alike := ofTokens_alike same
  rw [errorCount, errorCount]
  generalize ofTokens ts = x at alike
  generalize ofTokens us = y at alike
  cases alike with
  | ok => rfl
  | error errors => simpa using congrArg List.length errors

/-- A chunk before a `func` takes it for a name just if its reading ends past it. -/
theorem exists_ends_before_func {s : Cursor} {chunk : List Token} (isChunk : IsChunk chunk)
    (starts : s.kind = .keyword .func) :
    ∃ e, Ends s chunk e ∧ (takesNext chunk = true ↔ e = .passed) := by
  let func := Keyword.func.token s.position
  let stop : Cursor := ⟨[func], s.position⟩
  have same : s.SameStop stop := ⟨starts.symm, rfl, .inl starts⟩
  have empty : s.rest = [] ↔ stop.rest = [] := by
    obtain ⟨rest, ending⟩ := s
    cases rest with
    | nil => cases starts
    | cons => simp [stop]
  obtain ⟨e, ends, endsAtStop⟩ := exists_ends isChunk same empty
  have behind : Counts (e.next stop) (if e = .passed then 0 else 1) := by
    have lone : errorCount [func] = 1 := by with_unfolding_all rfl
    have alone : Counts stop 1 := lone ▸ counts_chunk ⟨_, [], rfl, nofun⟩ s.position
    cases e with
    | whole | stopped => exact alone
    | passed => exact counts_end rfl
  have count : errorCount (chunk ++ [Keyword.func.token .start]) =
      (if e = .passed then 0 else 1) + e.errors := by
    have kinds : SameKinds (chunk ++ [Keyword.func.token .start]) (chunk ++ [func]) := by
      simp [SameKinds, func, Keyword.token]
    rw [errorCount_alike kinds]
    apply errorCount_of_counts
    rw [start_concat chunk (by simp [func]), Cursor.before_append]
    exact endsAtStop.counts isChunk (.inl rfl) behind
  refine ⟨e, ends, ?_⟩
  rw [takesNext, decide_eq_true_eq, count, ← errors_of_ends isChunk ends]
  cases e <;> simp [ChunkEnd.errors]

/-! ## The chunks of a list -/

theorem countP_fails_cons {s : Cursor} {chunk : List Token} {e : ChunkEnd} (isChunk : IsChunk chunk)
    (ends : Ends s chunk e) (cs : List (List Token)) :
    (chunk :: cs).countP fails = cs.countP fails + e.errors := by
  rw [List.countP_cons, fails, ← errors_of_ends isChunk ends]
  cases e <;> rfl

theorem stops_flatten {cs : List (List Token)} (areChunks : ∀ c ∈ cs, IsChunk c) (p : Position) :
    (Cursor.before ⟨[], p⟩ cs.flatten).kind.Stops := by
  cases cs with
  | nil => exact .inr rfl
  | cons chunk cs =>
    obtain ⟨q, body, rfl, -⟩ := areChunks _ List.mem_cons_self
    exact .inl rfl

/-- The errors from a list of chunks are those of the chunks that are heard, each alone. -/
theorem counts_chunks {cs : List (List Token)} (areChunks : ∀ c ∈ cs, IsChunk c) (p : Position) :
    Counts (Cursor.before ⟨[], p⟩ cs.flatten) ((heard cs).countP fails) := by
  induction cs using heard.induct with
  | case1 => exact counts_end rfl
  | case2 chunk =>
    have isChunk := areChunks chunk (by simp)
    have atEnd : Cursor.SameStop ⟨[], p⟩ ⟨[], p⟩ := ⟨rfl, rfl, .inr rfl⟩
    obtain ⟨e, ends, -⟩ := exists_ends isChunk atEnd Iff.rfl
    rw [heard, countP_fails_cons isChunk ends, errors_of_ends isChunk ends]
    simpa using counts_chunk isChunk p
  | case3 chunk next later takes ih =>
    have isChunk := areChunks chunk (by simp)
    obtain ⟨q, body, rfl, free⟩ := areChunks next (by simp)
    obtain ⟨e, ends, passed⟩ := exists_ends_before_func isChunk
      (s := Cursor.before ⟨[], p⟩ (Keyword.func.token q :: (body ++ later.flatten))) rfl
    obtain rfl := passed.mp takes
    have others := fun c mem => areChunks c (List.mem_cons_of_mem _ (List.mem_cons_of_mem _ mem))
    rw [heard, if_pos takes, countP_fails_cons isChunk ends, List.flatten_cons,
      Cursor.before_append]
    refine ends.counts isChunk (.inl rfl) ?_
    rw [ChunkEnd.next, List.flatten_cons, List.cons_append, Cursor.before_cons,
      Cursor.advance_push, Cursor.before_append, recover_before (stops_flatten others p) free]
    exact ih others
  | case4 chunk next later takes ih =>
    have isChunk := areChunks chunk (by simp)
    have counts := ih fun c mem => areChunks c (List.mem_cons_of_mem _ mem)
    obtain ⟨q, body, rfl, -⟩ := areChunks next (by simp)
    obtain ⟨e, ends, passed⟩ := exists_ends_before_func isChunk
      (s := Cursor.before ⟨[], p⟩ (Keyword.func.token q :: (body ++ later.flatten))) rfl
    rw [heard, if_neg takes, countP_fails_cons isChunk ends, List.flatten_cons,
      Cursor.before_append]
    refine ends.counts isChunk (.inl rfl) ?_
    cases e with
    | passed => exact absurd (passed.mpr rfl) takes
    | whole | stopped => exact counts

theorem takesNext_fails {chunk : List Token} (isChunk : IsChunk chunk)
    (takes : takesNext chunk = true) : fails chunk = true := by
  obtain ⟨e, ends, passed⟩ := exists_ends_before_func isChunk
    (s := ⟨[Keyword.func.token .start], .start⟩) rfl
  obtain rfl := passed.mp takes
  rw [fails, ← errors_of_ends isChunk ends]
  rfl

theorem countP_fails_eq (cs : List (List Token)) :
    cs.countP fails = (heard cs).countP fails + (passedOver cs).countP fails := by
  induction cs using heard.induct with
  | case1 => rfl
  | case2 chunk => rfl
  | case3 chunk next later takes ih =>
    rw [heard, passedOver, if_pos takes, if_pos takes]
    simp only [List.countP_cons, ih]
    omega
  | case4 chunk next later takes ih =>
    rw [heard, passedOver, if_neg takes, if_neg takes, List.countP_cons, ih, List.countP_cons]
    omega

/-- Where no chunk that is heard fails, all are heard. -/
theorem heard_eq_self {cs : List (List Token)} (areChunks : ∀ c ∈ cs, IsChunk c)
    (fine : (heard cs).countP fails = 0) : heard cs = cs := by
  induction cs using heard.induct with
  | case1 => rfl
  | case2 chunk => rfl
  | case3 chunk next later takes ih =>
    have failing := takesNext_fails (areChunks chunk (by simp)) takes
    rw [heard, if_pos takes, List.countP_cons_of_pos failing] at fine
    omega
  | case4 chunk next later takes ih =>
    rw [heard, if_neg takes] at fine ⊢
    rw [List.countP_cons] at fine
    rw [ih (fun c mem => areChunks c (List.mem_cons_of_mem _ mem)) (by omega)]

/-- A token list without end marks that starts with `func` is read chunk by chunk: it is fine just
if each chunk is, and has as many errors as there are failing chunks among those that are heard.  So
an error of one chunk neither hides nor brings one in another, but for the chunk behind a name that
is missing at the end of a chunk: the count is that of all failing chunks just if no chunk that
fails has been passed over. -/
theorem errors_by_chunk {tokens : List Token} (free : ∀ t ∈ tokens, t.kind ≠ .eof)
    (starts : tokens.head?.map Token.kind = some (.keyword .func)) :
    ((∃ ds, ofTokens tokens = .ok ds) ↔ ∀ chunk ∈ chunks tokens, ∃ ds, ofTokens chunk = .ok ds) ∧
      errorCount tokens = (heard (chunks tokens)).countP fails ∧
      (errorCount tokens = (chunks tokens).countP fails ↔
        ∀ chunk ∈ passedOver (chunks tokens), ∃ ds, ofTokens chunk = .ok ds) := by
  have areChunks := isChunk_of_mem_chunks free starts
  have count : errorCount tokens = (heard (chunks tokens)).countP fails := by
    obtain ⟨p, start⟩ := exists_start free
    apply errorCount_of_counts
    have counts := counts_chunks areChunks p
    rwa [chunks, List.flatten_splitBy, ← start] at counts
  have none : ∀ cs : List (List Token),
      cs.countP fails = 0 ↔ ∀ chunk ∈ cs, ∃ ds, ofTokens chunk = .ok ds := by
    intro cs
    simp only [List.countP_eq_zero, fails, ← errorCount_eq_zero_iff, decide_eq_true_eq, not_not]
  have parts := countP_fails_eq (chunks tokens)
  refine ⟨?_, count, ?_⟩
  · rw [← errorCount_eq_zero_iff, count, ← none]
    refine ⟨fun fine => ?_, fun fine => by omega⟩
    rwa [heard_eq_self areChunks fine] at fine
  · rw [count, ← none]
    omega

/-- An expression is missing in each of the first two definitions. -/
theorem errors_by_chunk_of_two_slips :
    errorCount [Keyword.func.token ⟨1, 1⟩, nameToken "a" ⟨1, 6⟩, Sign.leftParen.token ⟨1, 7⟩,
      Sign.rightParen.token ⟨1, 8⟩, Sign.leftBrace.token ⟨1, 10⟩, nameToken "x" ⟨1, 12⟩,
      Sign.assign.token ⟨1, 14⟩, Sign.semicolon.token ⟨1, 16⟩, Sign.rightBrace.token ⟨1, 18⟩,
      Keyword.func.token ⟨2, 1⟩, nameToken "b" ⟨2, 6⟩, Sign.leftParen.token ⟨2, 7⟩,
      Sign.rightParen.token ⟨2, 8⟩, Sign.leftBrace.token ⟨2, 10⟩, nameToken "y" ⟨2, 12⟩,
      Sign.assign.token ⟨2, 14⟩, Sign.semicolon.token ⟨2, 16⟩, Sign.rightBrace.token ⟨2, 18⟩,
      Keyword.func.token ⟨3, 1⟩, nameToken "main" ⟨3, 6⟩, Sign.leftParen.token ⟨3, 10⟩,
      Sign.rightParen.token ⟨3, 11⟩, Sign.leftBrace.token ⟨3, 13⟩,
      Sign.rightBrace.token ⟨3, 15⟩] = 2 :=
  (errors_by_chunk (by decide) rfl).2.1.trans (by with_unfolding_all rfl)

/-- Where the name of a definition is missing, the `func` of the next one is taken for it, and the
error of that one is not heard of. -/
theorem taken_func_hides_error :
    ¬ ∀ tokens : List Token, (∀ t ∈ tokens, t.kind ≠ .eof) →
      tokens.head?.map Token.kind = some (.keyword .func) →
      errorCount tokens = (chunks tokens).countP fails := by
  intro claim
  have counts := claim [Keyword.func.token ⟨1, 1⟩, Keyword.func.token ⟨2, 1⟩, nameToken "g" ⟨2, 6⟩,
    Sign.leftBrace.token ⟨2, 8⟩, Sign.rightBrace.token ⟨2, 9⟩] (by decide) rfl
  have hidden : errorCount [Keyword.func.token ⟨1, 1⟩, Keyword.func.token ⟨2, 1⟩,
    nameToken "g" ⟨2, 6⟩, Sign.leftBrace.token ⟨2, 8⟩, Sign.rightBrace.token ⟨2, 9⟩] = 1 := by
    with_unfolding_all rfl
  have failing : (chunks [Keyword.func.token ⟨1, 1⟩, Keyword.func.token ⟨2, 1⟩,
    nameToken "g" ⟨2, 6⟩, Sign.leftBrace.token ⟨2, 8⟩,
    Sign.rightBrace.token ⟨2, 9⟩]).countP fails = 2 := by with_unfolding_all rfl
  rw [hidden, failing] at counts
  cases counts

end Definition

end Protoscript
