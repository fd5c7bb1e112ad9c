import Protoscript.Proofs.Bounds.Scan
import Protoscript.Proofs.Layout.Lines

/-! # Scanning by index takes the lexemes

Behind the bytes `front` of a source, scanning by index goes on as the lexemes do that the rest is
cut into: each primitive reads the head of the rest, each loop takes a front of it, a call of
`nextToken` takes the first lexeme (`Scan.nextToken_run`), and all calls take all of them.  None of
it trips (`Scan.tokens_eq`). -/

set_option autoImplicit false

namespace Protoscript

namespace Scan

/-- The scanner behind the bytes `front` of a source. -/
def behind (front : List UInt8) : Scanner := ⟨front.length, Position.start.after front⟩

/-- What the scan answers where the lexeme stands at `p`. -/
def answer (p : Position) (l : Lexeme) : Found :=
  match l.reading with
  | .gap => .ok none
  | .token kind => .ok (some ⟨kind, p⟩)
  | .fault cause offset => .error ⟨cause, p.after (l.bytes.take offset)⟩

variable {β : Type} {source front rest : List UInt8} {b : UInt8} {turns : Nat}

theorem place_behind (front bytes : List UInt8) :
    (behind (front ++ bytes)).place = (behind front).place.after bytes :=
  Position.after_append _ _ _

/-- What is left behind one byte more. -/
theorem behind_byte (whole : source = front ++ b :: rest) : source = front ++ [b] ++ rest := by
  rw [whole, List.append_assoc]
  rfl

theorem length_lt_succ (whole : source = front ++ rest) : rest.length < source.length + 1 := by
  rw [whole, List.length_append]
  omega

/-! ## One byte -/

theorem get_bind (f : Scanner → Scan β) (s : Scanner) : (get >>= f) s = f s s := rfl

theorem atEnd_bind (whole : source = front ++ rest) (f : Bool → Scan β) :
    (atEnd source >>= f) (behind front) = f rest.isEmpty (behind front) := by
  refine bind_of_run ?_ f
  have length : decide (source.length ≤ (behind front).index) = rest.isEmpty := by
    cases rest <;> simp [whole, behind]
  rw [atEnd, get_bind, length]
  rfl

theorem byteAt_of_getElem? {i : Nat} (here : source[i]? = some b) (s : Scanner) :
    byteAt source i s = .ok b s := by
  rw [byteAt, here]
  rfl

theorem advance_bind (whole : source = front ++ b :: rest) (f : UInt8 → Scan β) :
    (advance source >>= f) (behind front) = f b (behind (front ++ [b])) := by
  have here : source[(behind front).index]? = some b := by simp [whole, behind]
  have next : behind (front ++ [b]) = ⟨front.length + 1, (behind front).place.next b⟩ := by
    rw [behind, List.length_append, Position.after_append]
    rfl
  refine bind_of_run ?_ f
  rw [advance, get_bind, bind_of_run (byteAt_of_getElem? here _), next]
  rfl

theorem peek_bind (whole : source = front ++ rest) (f : UInt8 → Scan β) :
    (peek source >>= f) (behind front) = f (rest.headD 0) (behind front) := by
  refine bind_of_run ?_ f
  rw [peek, atEnd_bind whole]
  cases rest with
  | nil => rfl
  | cons b rest =>
    have here : source[front.length]? = some b := by simp [whole]
    exact byteAt_of_getElem? here _

theorem peekNext_bind (whole : source = front ++ b :: rest) (f : UInt8 → Scan β) :
    (peekNext source >>= f) (behind front) = f (rest.headD 0) (behind front) := by
  refine bind_of_run ?_ f
  rw [peekNext, get_bind]
  cases rest with
  | nil =>
    rw [if_pos (by simp [whole, behind])]
    rfl
  | cons c rest =>
    have here : source[front.length + 1]? = some c := by simp [whole]
    rw [if_neg (by simp [whole, behind])]
    exact byteAt_of_getElem? here _

/-! ## Loops -/

theorem takeRun_run (inClass : UInt8 → Bool) (whole : source = front ++ rest)
    (enough : rest.length < turns) : takeRun source inClass turns (behind front) =
      .ok (rest.takeWhile inClass) (behind (front ++ rest.takeWhile inClass)) := by
  induction turns generalizing front rest with
  | zero => cases enough
  | succ turns ih =>
    rw [takeRun, atEnd_bind whole]
    cases rest with
    | nil =>
      rw [List.takeWhile_nil, List.append_nil]
      rfl
    | cons b rest =>
      change (peek source >>= _) _ = _
      rw [peek_bind whole, List.headD_cons]
      by_cases inside : inClass b = true
      · rw [if_pos inside, List.takeWhile_cons_of_pos inside, advance_bind whole,
          bind_of_run (ih (behind_byte whole) (Nat.lt_of_succ_lt_succ enough)), List.append_assoc]
        rfl
      · rw [if_neg inside, List.takeWhile_cons_of_neg inside, List.append_nil]
        rfl

theorem headD_eq_iff {c : UInt8} (byte : c ≠ 0) (l : List UInt8) :
    l.headD 0 = c ↔ l.head? = some c := by
  cases l with
  | nil => simp [byte.symm]
  | cons d l => simp

theorem skipComment_run (whole : source = front ++ rest) (enough : rest.length < turns) :
    skipComment source turns (behind front) =
      .ok () (behind (front ++ (cutComment rest).1)) := by
  induction turns generalizing front rest with
  | zero => cases enough
  | succ turns ih =>
    rw [skipComment, atEnd_bind whole]
    cases rest with
    | nil =>
      rw [cutComment, List.append_nil]
      rfl
    | cons b rest =>
      have goesOn : (advance source >>= fun _ => skipComment source turns) (behind front) =
          .ok () (behind (front ++ b :: (cutComment rest).1)) := by
        rw [advance_bind whole, ih (behind_byte whole) (Nat.lt_of_succ_lt_succ enough),
          List.append_assoc]
        rfl
      change (peek source >>= _) _ = _
      rw [peek_bind whole, List.headD_cons, cutComment]
      by_cases star : b = '*'.toUInt8
      · rw [if_pos star, peekNext_bind whole]
        by_cases slash : rest.head? = some '/'.toUInt8
        · obtain ⟨tail, rfl⟩ := List.head?_eq_some_iff.mp slash
          have next := behind_byte whole
          rw [List.headD_cons, if_pos rfl, if_pos ⟨star, slash⟩, advance_bind whole,
            advance_bind next, List.append_assoc]
          rfl
        · rw [if_neg (mt (headD_eq_iff (by decide) rest).mp slash),
            if_neg fun both => slash both.2]
          exact goesOn
      · rw [if_neg star, if_neg fun both => star both.1]
        exact goesOn

/-- What comes of the rest `l` of a string literal that was opened at `p`, if it goes on at `q` and
its beginning has come to `bytes` or to an error. -/
def literalAnswer (p q : Position) (bytes : List UInt8) (error : Option Diagnostic) (l : Literal) :
    Except Diagnostic (List UInt8) :=
  if l.closed then
    (error.map .error).getD <|
      match Piece.decodeAll l.pieces with
      | .ok more => .ok (bytes ++ more)
      | .error (offset, bad) => .error ⟨.unknownEscape bad, q.after (l.bytes.take offset)⟩
  else .error ⟨.unterminatedString, p⟩

theorem literalAnswer_known (p q : Position) (bytes : List UInt8) (error : Option Diagnostic)
    {piece : Piece} {byte : UInt8} (known : piece.decoded? = some byte) (l : Literal) :
    literalAnswer p q bytes error (l.cons piece) =
      literalAnswer p (q.after piece.bytes) (bytes ++ [byte]) error l := by
  rw [literalAnswer, literalAnswer, Literal.cons_bytes, Literal.cons, Piece.decodeAll, known]
  cases Piece.decodeAll l.pieces with
  | ok more =>
    dsimp only
    rw [List.append_assoc]
    rfl
  | error bad =>
    simp only [List.take_length_add_append, Position.after_append]

theorem literalAnswer_unknown (p q : Position) (bytes : List UInt8) (error : Option Diagnostic)
    {letter : UInt8} (unknown : (Piece.escape letter).decoded? = none) (l : Literal) :
    literalAnswer p q bytes error (l.cons (.escape letter)) =
      literalAnswer p (q.after (Piece.escape letter).bytes) bytes
        (error.or (some ⟨.unknownEscape letter, q.next '\\'.toUInt8⟩)) l := by
  rw [literalAnswer, literalAnswer, Literal.cons, Piece.decodeAll, unknown]
  cases error <;> rfl

theorem takeLiteral_run (p : Position) (whole : source = front ++ rest)
    (enough : rest.length < turns) (bytes : List UInt8) (error : Option Diagnostic) :
    takeLiteral source p turns bytes error (behind front) =
      .ok (literalAnswer p (behind front).place bytes error (Literal.cut rest))
        (behind (front ++ (Literal.cut rest).bytes)) := by
  induction turns generalizing front rest bytes error with
  | zero => cases enough
  | succ turns ih =>
    rw [takeLiteral, atEnd_bind whole]
    cases rest with
    | nil =>
      change _ = EStateM.Result.ok _ (behind (front ++ []))
      rw [List.append_nil]
      rfl
    | cons b rest =>
      have next := behind_byte whole
      have short : rest.length < turns := Nat.lt_of_succ_lt_succ enough
      change (peek source >>= _) _ = _
      rw [peek_bind whole, List.headD_cons]
      by_cases newline : b = '\n'.toUInt8
      · subst newline
        rw [if_pos rfl, Literal.cut_newline]
        change _ = EStateM.Result.ok _ (behind (front ++ []))
        rw [List.append_nil]
        rfl
      rw [if_neg newline, advance_bind whole]
      by_cases quote : b = '"'.toUInt8
      · subst quote
        rw [if_pos rfl, Literal.cut_quote, literalAnswer, if_pos rfl, Piece.decodeAll]
        dsimp only
        rw [List.append_nil]
        rfl
      rw [if_neg quote]
      by_cases backslash : b = '\\'.toUInt8
      · subst backslash
        rw [if_pos rfl, atEnd_bind next]
        cases rest with
        | nil =>
          -- Behind a last backslash the loop turns once more, and finds the end.
          change takeLiteral source p turns bytes error _ = _
          rw [ih next short]
          change EStateM.Result.ok _ (behind (front ++ ['\\'.toUInt8] ++ [])) = _
          rw [List.append_nil]
          rfl
        | cons letter rest =>
          change ((get : Scan Scanner) >>= _) _ = _
          rw [get_bind, advance_bind next, List.append_assoc front, Literal.cut_escape,
            Literal.cons_bytes, ← List.append_assoc front (Piece.bytes _)]
          have behindEscape : source = front ++ ['\\'.toUInt8, letter] ++ rest := by simp [whole]
          have later := ih behindEscape (Nat.lt_of_succ_lt short)
          cases known : (Piece.escape letter).decoded? with
          | some byte =>
            rw [literalAnswer_known p _ bytes error known, ← place_behind]
            exact later (bytes ++ [byte]) error
          | none =>
            have place : (behind (front ++ ['\\'.toUInt8])).place =
                (behind front).place.next '\\'.toUInt8 := place_behind front _
            rw [literalAnswer_unknown p _ bytes error known, ← place_behind, ← place]
            exact later bytes _
      · rw [if_neg backslash, Literal.cut_plain newline quote backslash, ih next short,
          place_behind, literalAnswer_known p _ bytes error rfl, List.append_assoc]
        rfl

/-! ## One token -/

/-- How the signs that the byte opens are spelled, and with what they go on. -/
def Opens (b : UInt8) : Opening → Prop
  | .alone sign => sign.bytes = [b] ∧ ∀ c, (TokenKind.sign sign).goesOn c = false
  | .extended short long => short.bytes = [b] ∧ long.bytes = [b, '='.toUInt8] ∧
    ∀ c, (TokenKind.sign short).goesOn c = decide (c = '='.toUInt8) ∧
      (TokenKind.sign long).goesOn c = false
  | .doubled sign => sign.bytes = [b, b] ∧ (∀ c, (TokenKind.sign sign).goesOn c = false) ∧
    (∀ t ∈ Sign.all, t.bytes.head? = some b → t = sign) ∧
    (b = '&'.toUInt8 ∧ sign = .and ∨ b = '|'.toUInt8 ∧ sign = .or)

instance (b : UInt8) : (o : Opening) → Decidable (Opens b o)
  | .alone _ => inferInstanceAs (Decidable (_ ∧ _))
  | .extended _ _ => inferInstanceAs (Decidable (_ ∧ _))
  | .doubled _ => inferInstanceAs (Decidable (_ ∧ _))

theorem opens_of_mem : ∀ o ∈ Opening.all, Opens o.1 o.2 := by decide +kernel

theorem opens_of_lookup {o : Opening} (found : Opening.all.lookup b = some o) : Opens b o := by
  obtain ⟨before, after, split, -⟩ := List.lookup_eq_some_iff.mp found
  exact opens_of_mem (b, o) (by simp [split])

/-- A byte that opens no sign is not the first of any. -/
theorem ne_head_of_lookup : ∀ b, Opening.all.lookup b = none → b ≠ '/'.toUInt8 →
    ∀ s ∈ Sign.all, s.bytes.head? ≠ some b := by
  decide +kernel

/-- The scan `x`, once `b` is taken, takes the rest of the first lexeme of `b :: rest`. -/
def TakesFirst (front : List UInt8) (b : UInt8) (rest : List UInt8) (x : Scan Found) : Prop :=
  x (behind (front ++ [b])) =
    .ok (answer (behind front).place (Lexeme.first b rest).1)
      (behind (front ++ (Lexeme.first b rest).1.bytes))

theorem takesFirst_of_cut {x : Scan Found} {bytes later : List UInt8} {r : Reading}
    (cut : Lexeme.first b rest = (⟨b :: bytes, r⟩, later))
    (run : x (behind (front ++ [b])) =
      .ok (answer (behind front).place ⟨b :: bytes, r⟩) (behind (front ++ [b] ++ bytes))) :
    TakesFirst front b rest x := by
  rw [TakesFirst, cut, run, List.append_assoc]
  rfl

/-- A sign that does not go on is the first lexeme. -/
theorem first_of_bytes {s : Sign} {more later : List UInt8} (bytes : s.bytes = b :: more)
    (stops : ∀ c ∈ later.head?, (TokenKind.sign s).goesOn c = false) :
    Lexeme.first b (more ++ later) = (⟨b :: more, .token (.sign s)⟩, later) := by
  obtain ⟨c, tail, same, cut⟩ := Lexeme.first_of_sign stops
  obtain ⟨rfl, rfl⟩ := List.cons.inj (bytes.symm.trans same)
  rw [cut, bytes]

theorem takesFirst_slash (whole : source = front ++ '/'.toUInt8 :: rest) :
    TakesFirst front '/'.toUInt8 rest (slash source (behind front).place) := by
  have next := behind_byte whole
  by_cases line : rest.head? = some '/'.toUInt8
  · have cut : Lexeme.first '/'.toUInt8 rest =
        Lexeme.run (· != '\n'.toUInt8) ('/'.toUInt8 :: rest) fun _ => .gap := by
      rw [Lexeme.first, if_neg (by decide), if_neg (by decide), if_neg (by decide),
        if_neg (by decide), if_pos ⟨rfl, line⟩]
    refine takesFirst_of_cut cut ?_
    rw [slash, peek_bind next, if_pos ((headD_eq_iff (by decide) rest).mpr line),
      bind_of_run (takeRun_run _ next (length_lt_succ next))]
    rfl
  rw [← headD_eq_iff (by decide)] at line
  by_cases block : rest.head? = some '*'.toUInt8
  · obtain ⟨tail, rfl⟩ := List.head?_eq_some_iff.mp block
    have inside := behind_byte next
    refine takesFirst_of_cut (Lexeme.first_of_blockComment tail) ?_
    rw [slash, peek_bind next, if_neg line, peek_bind next, List.headD_cons, if_pos rfl,
      advance_bind next, bind_of_run (skipComment_run inside (length_lt_succ inside)),
      List.append_assoc (front ++ _)]
    rfl
  · have stops : ∀ b ∈ rest.head?, (TokenKind.sign .slash).goesOn b = false := by
      intro b here
      rw [headD_eq_iff (by decide)] at line
      rw [Bool.eq_false_iff, Ne, TokenKind.goesOn_slash]
      rintro (rfl | rfl)
      · exact line here
      · exact block here
    rw [← headD_eq_iff (by decide)] at block
    have bytes : Sign.slash.bytes = ['/'.toUInt8] := rfl
    refine takesFirst_of_cut (first_of_bytes bytes stops) ?_
    rw [slash, peek_bind next, if_neg line, peek_bind next, if_neg block, List.append_nil]
    rfl

theorem takesFirst_literal (whole : source = front ++ '"'.toUInt8 :: rest) :
    TakesFirst front '"'.toUInt8 rest (literal source (behind front).place) := by
  have next := behind_byte whole
  refine takesFirst_of_cut (Lexeme.first_quote rest) ?_
  rw [literal, bind_of_run (takeLiteral_run _ next (length_lt_succ next) [] none),
    literalAnswer, place_behind, answer, Literal.reading]
  by_cases closed : (Literal.cut rest).closed = true
  · rw [if_pos closed, if_pos closed]
    cases Piece.decodeAll (Literal.cut rest).pieces <;> rfl
  · rw [if_neg closed, if_neg closed]
    rfl

theorem takesFirst_integer (digit : isDigitByte b = true) (whole : source = front ++ b :: rest) :
    TakesFirst front b rest (integer source b (behind front).place) := by
  have next := behind_byte whole
  have cut : Lexeme.first b rest = Lexeme.run isDigitByte (b :: rest) Lexeme.ofDigits := by
    rw [Lexeme.first, if_neg (by simp [isBlankByte_of_digit digit]), if_pos digit]
  rw [Lexeme.run, List.takeWhile_cons_of_pos digit] at cut
  refine takesFirst_of_cut cut ?_
  rw [integer, bind_of_run (takeRun_run _ next (length_lt_succ next)), answer, Lexeme.ofDigits]
  dsimp only
  cases Numeral.upTo? Numeral.maxSigned ((b :: rest.takeWhile isDigitByte).map Text.charOf) <;> rfl

theorem takesFirst_word (start : isWordStart b = true) (whole : source = front ++ b :: rest) :
    TakesFirst front b rest (word source b (behind front).place) := by
  have next := behind_byte whole
  obtain ⟨notBlank, notDigit⟩ := classes_of_wordStart start
  have cut : Lexeme.first b rest = Lexeme.run isWordByte (b :: rest) fun word =>
      .token (.ofWord (Lexeme.asciiText word)) := by
    rw [Lexeme.first, if_neg (by simp [notBlank]), if_neg (by simp [notDigit]), if_pos start]
  rw [Lexeme.run, List.takeWhile_cons_of_pos (by simp [isWordByte, start])] at cut
  refine takesFirst_of_cut cut ?_
  rw [word, bind_of_run (takeRun_run _ next (length_lt_succ next))]
  rfl

/-- A byte that no other lexeme begins with makes a lexeme of its own. -/
theorem first_of_unsigned (notBlank : isBlankByte b = false) (notDigit : isDigitByte b = false)
    (notWord : isWordStart b = false) (notQuote : b ≠ '"'.toUInt8) (notSlash : b ≠ '/'.toUInt8)
    (noSign : Sign.heading? (b :: rest) = none) :
    Lexeme.first b rest = (⟨[b], Lexeme.ofStray b⟩, rest) := by
  rw [Lexeme.first, if_neg (by simp [notBlank]), if_neg (by simp [notDigit]),
    if_neg (by simp [notWord]), if_neg notQuote, if_neg fun both => notSlash both.1,
    if_neg fun both => notSlash both.1, noSign]

theorem heading?_eq_none
    (no : ∀ s ∈ Sign.all, s.bytes.head? = some b → ¬ s.bytes <+: b :: rest) :
    Sign.heading? (b :: rest) = none := by
  rw [Sign.heading?, List.find?_eq_none]
  intro s member starts
  rw [List.isPrefixOf_iff_prefix] at starts
  refine no s member ?_ starts
  obtain ⟨c, tail, bytes, -⟩ := Lexeme.bytes_of_sign s
  rw [bytes, List.cons_prefix_cons] at starts
  rw [bytes, starts.1, List.head?_cons]

/-- A byte that is a sign when it is doubled is no sign by itself. -/
theorem first_of_bare {s : Sign} (opens : Opens b (.doubled s)) (single : rest.head? ≠ some b) :
    Lexeme.first b rest =
      (⟨[b], .fault (if s = .and then .bareAmpersand else .bareBar) 0⟩, rest) := by
  obtain ⟨bytes, -, only, which⟩ := opens
  have noSign : Sign.heading? (b :: rest) = none := by
    refine heading?_eq_none fun t member head starts => single ?_
    rw [only t member head, bytes, List.cons_prefix_cons] at starts
    obtain ⟨later, rfl⟩ := starts.2
    rfl
  rcases which with ⟨rfl, rfl⟩ | ⟨rfl, rfl⟩ <;>
    exact first_of_unsigned (by decide) (by decide) (by decide) (by decide) (by decide) noSign

theorem first_of_stray (visible : isBlankByte b = false) (notDigit : isDigitByte b = false)
    (notWord : isWordStart b = false) (notQuote : b ≠ '"'.toUInt8) (notSlash : b ≠ '/'.toUInt8)
    (none : Opening.all.lookup b = .none) :
    Lexeme.first b rest = (⟨[b], .fault (.strayByte b) 0⟩, rest) := by
  have noSign : Sign.heading? (b :: rest) = .none :=
    heading?_eq_none fun s member head _ => ne_head_of_lookup b none notSlash s member head
  have notAmpersand : b ≠ '&'.toUInt8 := by
    rintro rfl
    cases none
  have notBar : b ≠ '|'.toUInt8 := by
    rintro rfl
    cases none
  rw [first_of_unsigned visible notDigit notWord notQuote notSlash noSign, Lexeme.ofStray,
    if_neg notAmpersand, if_neg notBar]

theorem takesFirst_sign {o : Opening} (opens : Opens b o) (whole : source = front ++ b :: rest) :
    TakesFirst front b rest (sign source b (behind front).place o) := by
  have next := behind_byte whole
  cases o with
  | alone s =>
    obtain ⟨bytes, stops⟩ := opens
    refine takesFirst_of_cut (first_of_bytes bytes fun c _ => stops c) ?_
    rw [sign, List.append_nil]
    rfl
  | extended short long =>
    obtain ⟨shortBytes, longBytes, stops⟩ := opens
    by_cases more : rest.head? = some '='.toUInt8
    · obtain ⟨tail, rfl⟩ := List.head?_eq_some_iff.mp more
      refine takesFirst_of_cut (first_of_bytes longBytes fun c _ => (stops c).2) ?_
      rw [sign, peek_bind next, List.headD_cons, if_pos rfl, advance_bind next]
      rfl
    · have ends : ∀ c ∈ rest.head?, (TokenKind.sign short).goesOn c = false := by
        intro c here
        rw [(stops c).1, decide_eq_false_iff_not]
        rintro rfl
        exact more here
      rw [← headD_eq_iff (by decide)] at more
      refine takesFirst_of_cut (first_of_bytes shortBytes ends) ?_
      rw [sign, peek_bind next, if_neg more, List.append_nil]
      rfl
  | doubled s =>
    obtain ⟨bytes, stops, only, which⟩ := opens
    by_cases more : rest.head? = some b
    · obtain ⟨tail, rfl⟩ := List.head?_eq_some_iff.mp more
      refine takesFirst_of_cut (first_of_bytes bytes fun c _ => stops c) ?_
      rw [sign, peek_bind next, List.headD_cons, if_pos rfl, advance_bind next]
      rfl
    · refine takesFirst_of_cut (first_of_bare ⟨bytes, stops, only, which⟩ more) ?_
      have byte : b ≠ 0 := by rcases which with ⟨rfl, -⟩ | ⟨rfl, -⟩ <;> decide
      rw [← headD_eq_iff byte] at more
      rw [sign, peek_bind next, if_neg more, List.append_nil]
      rfl

/-- A call of `nextToken` takes the first lexeme. -/
theorem nextToken_run (visible : isBlankByte b = false) (whole : source = front ++ b :: rest) :
    nextToken source (behind front) =
      .ok (answer (behind front).place (Lexeme.first b rest).1)
        (behind (front ++ (Lexeme.first b rest).1.bytes)) := by
  rw [nextToken, get_bind, advance_bind whole]
  by_cases isSlash : b = '/'.toUInt8
  · subst isSlash
    rw [if_pos rfl]
    exact takesFirst_slash whole
  rw [if_neg isSlash]
  cases found : Opening.all.lookup b with
  | some o => exact takesFirst_sign (opens_of_lookup found) whole
  | none =>
    dsimp only
    by_cases quote : b = '"'.toUInt8
    · subst quote
      rw [if_pos rfl]
      exact takesFirst_literal whole
    by_cases digit : isDigitByte b = true
    · rw [if_neg quote, if_pos digit]
      exact takesFirst_integer digit whole
    by_cases start : isWordStart b = true
    · rw [if_neg quote, if_neg digit, if_pos start]
      exact takesFirst_word start whole
    rw [if_neg quote, if_neg digit, if_neg start]
    refine takesFirst_of_cut (first_of_stray visible (Bool.eq_false_iff.mpr digit)
      (Bool.eq_false_iff.mpr start) quote isSlash found) ?_
    rw [List.append_nil]
    rfl

/-! ## All tokens -/

theorem together_answer (p : Position) (l : Lexeme) (later : List Diagnostic × List Token) :
    together (answer p l) later = Lexeme.join (Lexeme.scanOne p l) later := by
  obtain ⟨bytes, reading⟩ := l
  cases reading <;> rfl

/-- The scan goes on to the end of the source, over every lexeme in front of it. -/
theorem scanAll_run (whole : source = front ++ rest) (enough : rest.length < turns) :
    scanAll source turns (behind front) =
      .ok (Lexeme.join (Lexeme.scan (behind front).place rest)
        ([], [⟨.eof, (behind source).place⟩])) (behind source) := by
  induction turns generalizing front rest with
  | zero => cases enough
  | succ turns ih =>
    obtain ⟨blanks, visible, split, allBlank, ends⟩ : ∃ blanks visible, rest = blanks ++ visible ∧
        blanks = rest.takeWhile isBlankByte ∧ visible = rest.dropWhile isBlankByte :=
      ⟨_, _, List.takeWhile_append_dropWhile.symm, rfl, rfl⟩
    have next : source = front ++ blanks ++ visible := by simp [whole, split]
    have overBlanks : Lexeme.scan (behind front).place rest =
        Lexeme.scan (behind (front ++ blanks)).place visible := by
      rw [place_behind, split]
      refine Lexeme.scan_blanks (fun c member => ?_) _ _
      rw [allBlank] at member
      exact List.mem_takeWhile_imp member
    rw [scanAll, bind_of_run (takeRun_run _ whole (length_lt_succ whole)), ← allBlank,
      overBlanks, atEnd_bind next]
    cases visible with
    | nil =>
      rw [List.append_nil] at next
      rw [Lexeme.scan_nil, next]
      rfl
    | cons b visible =>
      have notBlank : isBlankByte b = false := by
        have stopped := List.head?_dropWhile_not isBlankByte rest
        rw [← ends] at stopped
        exact stopped
      have whole' : source = front ++ blanks ++ (Lexeme.first b visible).1.bytes ++
          (Lexeme.first b visible).2 := by
        rw [next, List.append_assoc _ (Lexeme.bytes _), Lexeme.first_bytes]
      have shorter := Lexeme.first_rest_length_lt b visible
      have moved : ¬ (behind (front ++ blanks ++ (Lexeme.first b visible).1.bytes)).index ≤
          (behind (front ++ blanks)).index := by
        have taken := List.length_pos_iff.mpr (Lexeme.first_ne_nil b visible)
        simp only [behind, List.length_append]
        omega
      rw [split, List.length_append] at enough
      have later := ih whole' (by omega)
      change ((get : Scan Scanner) >>= _) _ = _
      rw [get_bind, bind_of_run (nextToken_run notBlank next), get_bind, if_neg moved]
      change (scanAll source turns >>= _) _ = _
      rw [bind_of_run later, Lexeme.scan_cons rfl, Lexeme.join_assoc, ← place_behind]
      exact congrArg (EStateM.Result.ok · (behind source)) (together_answer _ _ _)

/-- The scan never trips, and comes to the tokens or the errors of the source. -/
theorem tokens_eq (source : List UInt8) : tokens source = .ok (Token.ofBytes source) := by
  have run : scanAll source (source.length + 1) (behind []) = _ :=
    scanAll_run (List.nil_append source).symm (Nat.lt_succ_self _)
  have start : (⟨0, .start⟩ : Scanner) = behind [] := rfl
  rw [tokens, start, run]
  have errors : (Lexeme.join (Lexeme.scan .start source)
      ([], [⟨.eof, (behind source).place⟩])).1 = (Lexeme.scan .start source).1 :=
    List.append_nil _
  by_cases clean : (Lexeme.scan .start source).1 = []
  · rw [Token.ofBytes_eq_ok_iff.mpr ⟨clean, rfl⟩]
    exact congrArg Except.ok (if_pos (errors.trans clean))
  · have some := fun none => clean (errors.symm.trans none)
    rw [Token.ofBytes_eq_error_of_ne clean, ← errors]
    exact congrArg Except.ok (if_neg some)

end Scan

end Protoscript
