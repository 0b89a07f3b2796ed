import ShellSyntax.Proofs.Concatenation
import ShellSyntax.Proofs.FirstFault
import ShellSyntax.Proofs.Relabelling

/-!
# Texts between quotes

Whatever stands between two quotes is one token, as long as it does not contain their kind of quote.
What is around the quotes is read as if nothing were between them: the tokens in front of them stay,
and the text behind them is read as it is by itself. Of the body itself only its extent shows there,
in the positions behind it.
-/

namespace ShellSyntax

def quotedWithin (before : Text) (q : Quote) (body after : Text) : Text :=
  before ++ q.char :: body ++ q.char :: after

/-- Whether two texts have as many newlines, and as many characters behind the last of them. -/
structure Coextensive (u v : Text) : Prop where
  newlines : u.count '\n' = v.count '\n'
  lastLine : (u.reverse.takeWhile (· != '\n')).length = (v.reverse.takeWhile (· != '\n')).length

/-- A result without its positions. -/
def unplaced : Result (List Token) → Option (Except Fault (List Kind))
  | .ok tokens => some (.ok (tokens.map Token.kind))
  | .error e => some (.error e.fault)
  | .stuck => none

def rekind (n : Nat) (kind : Kind) (tokens : List Token) : List Token :=
  tokens.modify n (Token.mapKind fun _ => kind)

theorem Coextensive.advance_eq {u v : Text} (same : Coextensive u v) (p : Position) :
    p.advance u = p.advance v := by
  have fromOrigin (text : Text) : Position.origin.advance text = .ofOffset text text.length := by
    rw [← Position.advance_take text _ le_rfl, List.take_length]
  have extents : Position.origin.advance u = Position.origin.advance v := by
    rw [fromOrigin, fromOrigin, Position.ofOffset, Position.ofOffset, List.take_length,
      List.take_length, same.newlines, same.lastLine]
  rw [← Position.shift_origin_advance p u, extents, Position.shift_origin_advance]

theorem Coextensive.quoted_eq {u v : Text} (same : Coextensive u v) (p : Position) (q : Quote) :
    p.advance (Kind.quoted q u).source = p.advance (Kind.quoted q v).source ∧
      Span.ofText p (Kind.quoted q u).source = .ofText p (Kind.quoted q v).source := by
  have reached : p.advance (q.char :: u) = p.advance (q.char :: v) := same.advance_eq _
  rw [Kind.source, Kind.source]
  constructor
  · rw [Position.advance_concat, Position.advance_concat, reached]
  · rw [Span.ofText_concat, Span.ofText_concat, reached]

section Resuming

variable (base : Position) (front : List Token) (result : Result (List Token))

theorem unplaced_resume :
    unplaced (resume base front result) =
      (unplaced result).map (Except.map (front.map Token.kind ++ ·)) := by
  cases result with
  | ok tokens => simp [unplaced, resume, Except.map, Function.comp_def, kind_shift]
  | error e => cases e <;> rfl
  | stuck => rfl

theorem rekind_append_cons (t : Token) (behind : List Token) (kind : Kind) :
    rekind front.length kind (front ++ t :: behind) = front ++ ⟨kind, t.span⟩ :: behind := by
  simp [rekind, List.modify_eq_take_cons_drop, Token.mapKind]

theorem map_rekind_resume (span : Span) (kind kind' : Kind) :
    (resume base (front ++ [⟨kind, span⟩]) result).map (rekind front.length kind') =
      resume base (front ++ [⟨kind', span⟩]) result := by
  cases result with
  | ok tokens => simp [resume, Result.map, rekind_append_cons]
  | error e => rfl
  | stuck => rfl

end Resuming

section Enclosing

variable {u : Text} {us : List Token} {p : Position} {q : Quote} {body body' : Text}

theorem quotedWithin_eq (u : Text) (q : Quote) (body v : Text) :
    quotedWithin u q body v = u ++ ((Kind.quoted q body).source ++ v) := by
  simp [quotedWithin, Kind.source]

theorem tokenize_quotedWithin (accepted : tokenize u = .ok (us ++ [⟨.eof, .point p⟩]))
    (outside : ¬ EndsInWord (us ++ [⟨.eof, .point p⟩])) (inside : q.char ∉ body) (v : Text) :
    tokenize (quotedWithin u q body v) =
      resume (p.advance (Kind.quoted q body).source)
        (us ++ [⟨.quoted q body, .ofText p (Kind.quoted q body).source⟩]) (tokenize v) := by
  obtain ⟨kinds, legible, rfl, rfl, rfl⟩ := exists_of_tokenize_eq_ok_concat accepted
  rw [← place_eof, ← place_append] at outside
  have stands : (Kind.quoted q body).StandsBefore v := (Kind.Form.quoted inside v).standsBefore
  have longer : Legible (kinds ++ [.quoted q body]) v :=
    Legible.append_iff.mpr ⟨legible.before_quote outside q _, stands, trivial⟩
  have whole : quotedWithin (sources kinds) q body v =
      sources (kinds ++ [.quoted q body]) ++ v := by simp [quotedWithin_eq]
  rw [whole, longer.tokenize_append]
  simp [place]

theorem extent_quotedWithin (accepted : tokenize u = .ok (us ++ [⟨.eof, .point p⟩]))
    (q : Quote) (body v : Text) :
    let text := quotedWithin u q body v
    let closing := u.length + (body.length + 1)
    p.advance (Kind.quoted q body).source = .ofOffset text (closing + 1) ∧
      Span.ofText p (Kind.quoted q body).source = ⟨p, .ofOffset text closing⟩ := by
  intro text closing
  obtain ⟨-, -, -, -, rfl⟩ := exists_of_tokenize_eq_ok_concat accepted
  have split : text = u ++ ((Kind.quoted q body).source ++ v) := quotedWithin_eq u q body v
  have here : text.drop u.length = (Kind.quoted q body).source ++ v := by
    rw [split, List.drop_left]
  have opening : Position.origin.advance u = .ofOffset text u.length := by
    rw [split, Position.ofOffset_append]
  have size : (Kind.quoted q body).source.length = body.length + 2 := by simp [Kind.source]
  have nonempty : (Kind.quoted q body).source ≠ [] := List.cons_ne_nil _ _
  rw [opening]
  constructor
  · rw [Position.advance_ofOffset here, size]
    rfl
  · rw [Span.ofText_ofOffset here nonempty, size]
    rfl

/-- A quoted body is one token, and around it nothing depends on it but the positions behind it,
which depend on its extent alone. -/
theorem tokenize_quoted_body (accepted : tokenize u = .ok (us ++ [⟨.eof, .point p⟩]))
    (outside : ¬ EndsInWord (us ++ [⟨.eof, .point p⟩])) (q : Quote) (v : Text) :
    tokenize v ≠ .stuck ∧
    (∀ body, q.char ∉ body →
      let text := quotedWithin u q body v
      let closing := u.length + (body.length + 1)
      tokenize text =
        resume (.ofOffset text (closing + 1))
          (us ++ [⟨.quoted q body, ⟨p, .ofOffset text closing⟩⟩]) (tokenize v)) ∧
    (∀ body body', q.char ∉ body → q.char ∉ body' →
      unplaced (tokenize (quotedWithin u q body' v)) =
        (unplaced (tokenize (quotedWithin u q body v))).map
          (Except.map (·.set us.length (.quoted q body')))) ∧
    ∀ body body', q.char ∉ body → q.char ∉ body' → Coextensive body body' →
      tokenize (quotedWithin u q body' v) =
        (tokenize (quotedWithin u q body v)).map (rekind us.length (.quoted q body')) := by
  refine ⟨tokenize_ne_stuck v, ?_, ?_, ?_⟩
  · intro body inside text closing
    obtain ⟨further, span⟩ := extent_quotedWithin accepted q body v
    rw [tokenize_quotedWithin accepted outside inside, further, span]
  · intro body body' inside inside'
    rw [tokenize_quotedWithin accepted outside inside,
      tokenize_quotedWithin accepted outside inside', unplaced_resume, unplaced_resume]
    rcases unplaced (tokenize v) with _ | fault | kinds
    · rfl
    · rfl
    · simp [Except.map]
  · intro body body' inside inside' same
    obtain ⟨further, span⟩ := same.quoted_eq p q
    rw [tokenize_quotedWithin accepted outside inside,
      tokenize_quotedWithin accepted outside inside', further, span, map_rekind_resume]

theorem tokenize_quoted_body_lines :
    let u : Text := "a|\n".toList
    let us : List Token :=
      [⟨.word ['a'], .point ⟨1, 0⟩⟩, ⟨.pipe, .point ⟨1, 1⟩⟩, ⟨.space ['\n'], .point ⟨1, 2⟩⟩]
    let body : Text := "x\n&'".toList
    let body' : Text := "\n<<".toList
    let tokens (body : Text) : List Token :=
      us ++ [⟨.quoted .double body, ⟨⟨2, 0⟩, ⟨3, 2⟩⟩⟩, ⟨.word "b'".toList, ⟨⟨3, 3⟩, ⟨3, 4⟩⟩⟩,
        ⟨.eof, .point ⟨3, 5⟩⟩]
    (tokenize u = .ok (us ++ [⟨.eof, .point ⟨2, 0⟩⟩]) ∧ Coextensive body body') ∧
      tokenize (quotedWithin u .double body "b'".toList) = .ok (tokens body) ∧
      tokenize (quotedWithin u .double body' "b'".toList) = .ok (tokens body') ∧
      tokenize (quotedWithin u .double body' "'".toList) =
        tokenize (quotedWithin u .double body "'".toList) ∧
      unplaced (tokenize (quotedWithin u .double [] "'".toList)) = some (.error .unclosed) := by
  intro u us body body' tokens
  have accepted : tokenize u = .ok (us ++ [⟨.eof, .point ⟨2, 0⟩⟩]) := rfl
  have outside : ¬ EndsInWord (us ++ [⟨.eof, .point ⟨2, 0⟩⟩]) := by
    intro ⟨t, last, word, kind⟩
    obtain rfl := Option.some.inj last
    cases kind
  have inside : Quote.double.char ∉ body := by decide
  have inside' : Quote.double.char ∉ body' := by decide
  have same : Coextensive body body' := ⟨rfl, rfl⟩
  have read := (tokenize_quoted_body accepted outside .double "b'".toList).2.1 body inside
  have unclosed := tokenize_quoted_body accepted outside .double "'".toList
  refine ⟨⟨accepted, same⟩, read, ?_, ?_, ?_⟩
  · rw [(tokenize_quoted_body accepted outside .double "b'".toList).2.2.2 body body' inside inside'
      same, read]
    rfl
  · rw [unclosed.2.2.2 body body' inside inside' same, unclosed.2.1 body inside]
    rfl
  · exact unclosed.2.2.1 body [] inside (by decide)

end Enclosing

end ShellSyntax
