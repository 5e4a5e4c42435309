import Abacus.Proofs.Bytes.Numbers

namespace Abacus.Bytes

open Text Token

variable {source : String} {pos start taken : Nat} {c quote : Char} {text rest : List Char}

theorem matches_readName (h : At source start text) :
    Matches start text (readName source start)
      (.ok (ofName (.ofList (text.takeWhile isNameChar)), text.dropWhile isNameChar)) := by
  have hplace := h
  rw [← List.takeWhile_append_dropWhile (p := isNameChar) (l := text)] at hplace
  have hcut := hplace.cut
  rw [← h.skipWhile ascii_isNameChar] at hcut
  rw [readName, hcut]
  exact .token ⟨rfl, h.passes_skipWhile ascii_isNameChar⟩

theorem readQuoted_cons (quote : Char) (taken : Nat) (h : c ≠ '\\') (rest : List Char) :
    readQuoted quote taken (c :: rest) =
      if c = quote then some ([], taken + 1)
      else if c = '\n' then none
      else (readQuoted quote (taken + c.utf8Size) rest).map fun (text, taken) => (c :: text, taken) := by
  simp [readQuoted, h]

/-- A character in front is passed before the others are. -/
theorem agree_map {stop : Nat} {x : Option (List Char × Nat)} {y : Option (List Char × List Char)}
    (hpasses : Passes taken text stop rest) (h : Option.Rel (Agree stop rest) x y) (c : Char) :
    Option.Rel (Agree taken text) (x.map fun (text, taken) => (c :: text, taken))
      (y.map fun (found, after) => (c :: found, after)) := by
  cases h with
  | none => exact .none
  | some hagree => exact .some ⟨congrArg (c :: ·) hagree.1, hpasses.trans hagree.2⟩

/-- The quote that ends a string is the same, whether bytes are counted up to it or characters. -/
theorem agree_readQuoted (hquote : quote.toNat < 0x80) (taken : Nat) (text : List Char) :
    Option.Rel (Agree taken text) (readQuoted quote taken text) (scanString quote text) := by
  fun_induction scanString quote text generalizing taken with
  | case1 => exact .none
  | case2 => exact .none
  | case3 c text ih =>
    refine agree_map ⟨['\\', c], rfl, ?_⟩ (ih _) (unescape c)
    simp [Utf8.size, Nat.add_assoc]
  | case4 text hlast hnext =>
    rw [readQuoted_cons quote taken (ne_backslash hlast hnext), if_pos rfl]
    exact .some ⟨rfl, .cons hquote taken text⟩
  | case5 text hlast hnext hne =>
    rw [readQuoted_cons quote taken (by decide), if_neg hne, if_pos rfl]
    exact .none
  | case6 c text hlast hnext hne hnewline ih =>
    rw [readQuoted_cons quote taken (ne_backslash hlast hnext), if_neg hne, if_neg hnewline]
    exact agree_map ⟨[c], rfl, rfl⟩ (ih _) c

theorem matches_readString (h : At source start (quote :: text)) (hquote : quote.toNat < 0x80) :
    Matches start (quote :: text) (readString source quote start)
      (match scanString quote text with
        | some (found, after) => .ok (str (.ofList found), after)
        | none => .error (.malformed .unterminatedString start)) := by
  have hread := agree_readQuoted hquote 0 text
  unfold readString
  rw [(h.tail hquote).cut_end]
  dsimp only [bind, Except.bind]
  generalize readQuoted quote 0 text = read at hread
  generalize scanString quote text = scanned at hread
  cases hread with
  | none => exact .fault _
  | @some read scanned hagree =>
    obtain ⟨hfound, w, htext, hstop⟩ := hagree
    refine .token ⟨congrArg (fun found => str (.ofList found)) hfound, quote :: w, ?_, ?_⟩
    · rw [htext]
      rfl
    · rw [← List.singleton_append, Utf8.size_append, size_singleton hquote, hstop]
      dsimp only
      omega

theorem readSymbol_of_long (hc : 0x80 ≤ c.toNat) (pos : Nat) : readSymbol source c pos = none := by
  unfold readSymbol
  split
  case h_16 => rfl
  all_goals exact absurd hc (by decide)

theorem agree_spelling (sign : Symbol) (hrest : Clear sign.continues rest) (pos : Nat) :
    Option.Rel (Agree pos (sign.spelling ++ rest)) (some (sign, pos + sign.spelling.length))
      (Symbol.scan? (sign.spelling ++ rest)) := by
  rw [scan?_spelling sign hrest]
  refine .some ⟨rfl, sign.spelling, rfl, ?_⟩
  cases sign <;> rfl

theorem agree_chars {sign : Symbol} {chars : List Char} (hsign : sign.spelling = chars)
    (hrest : Clear sign.continues rest) (pos : Nat) :
    Option.Rel (Agree pos (chars ++ rest)) (some (sign, pos + chars.length))
      (Symbol.scan? (chars ++ rest)) := by
  subst hsign
  exact agree_spelling sign hrest pos

theorem clear_or {p q : Char → Bool} (hp : Clear p text) (hq : Clear q text) :
    Clear (fun c => p c || q c) text := by
  intro c hc
  exact Bool.or_eq_false_iff.2 ⟨hp c hc, hq c hc⟩

/-- The longer symbol is read if the character that makes it longer comes next. -/
theorem agree_readLonger {d : Char} {longer shorter : Symbol} (h : At source (pos + 1) rest)
    (hd : d.toNat < 0x80) (hlonger : longer.spelling = [c, d]) (hends : ∀ b, longer.continues b = false)
    (hshorter : shorter.spelling = [c]) (hclear : Clear (· == d) rest → Clear shorter.continues rest) :
    Option.Rel (Agree pos (c :: rest)) (some (readLonger source d longer shorter (pos + 1)))
      (Symbol.scan? (c :: rest)) := by
  unfold readLonger
  rcases h.eat_cases hd with ⟨after, rfl, heat, _⟩ | ⟨heat, hnone⟩
  · rw [heat]
    exact agree_chars hlonger (fun b _ => hends b) pos
  · rw [heat]
    exact agree_chars hshorter (hclear hnone) pos

/-- Nothing is read where no symbol starts. -/
theorem scan?_eq_none (h : ∀ (sign : Symbol) (after : List Char), text ≠ sign.spelling ++ after) :
    Symbol.scan? text = none := by
  cases hscan : Symbol.scan? text with
  | none => rfl
  | some found => exact absurd (Symbol.eq_spelling_append hscan) (h _ _)

/-- A symbol of two characters is read if the second one comes next, and otherwise none is. -/
theorem agree_readPair {d : Char} {sign : Symbol} (h : At source (pos + 1) rest) (hd : d.toNat < 0x80)
    (hsign : sign.spelling = [c, d]) (hends : ∀ b, sign.continues b = false)
    (hother : Clear (· == d) rest → ∀ (other : Symbol) after, c :: rest ≠ other.spelling ++ after) :
    Option.Rel (Agree pos (c :: rest)) ((eat source d (pos + 1)).map (sign, ·))
      (Symbol.scan? (c :: rest)) := by
  rcases h.eat_cases hd with ⟨after, rfl, heat, _⟩ | ⟨heat, hnone⟩
  · rw [heat]
    exact agree_chars hsign (fun b _ => hends b) pos
  · rw [heat, scan?_eq_none (hother hnone)]
    exact .none

theorem scan?_dot (h : ∀ after, rest ≠ '.' :: '.' :: after) :
    Symbol.scan? ('.' :: rest) = some (.dot, rest) := by
  have hnone : after? ['.', '.'] rest = none := by
    cases hafter : after? ['.', '.'] rest with
    | none => rfl
    | some after => exact absurd (after?_eq_some_iff.1 hafter) (h after)
  simp [Symbol.scan?, Symbol.longestFirst, Symbol.spelling, after?, hnone]

theorem agree_readSymbol (h : At source pos (c :: rest)) (hc : c.toNat < 0x80) :
    Option.Rel (Agree pos (c :: rest)) (readSymbol source c (pos + 1)) (Symbol.scan? (c :: rest)) := by
  have hrest := h.tail hc
  unfold readSymbol
  split
  · exact agree_spelling .plus (fun _ _ => rfl) pos
  · exact agree_spelling .minus (fun _ _ => rfl) pos
  · exact agree_readLonger hrest (by decide) rfl (fun _ => rfl) rfl id
  · exact agree_readLonger hrest (by decide) rfl (fun _ => rfl) rfl id
  · exact agree_spelling .percent (fun _ _ => rfl) pos
  · exact agree_spelling .tilde (fun _ _ => rfl) pos
  · exact agree_spelling .ampersand (fun _ _ => rfl) pos
  · exact agree_spelling .pipe (fun _ _ => rfl) pos
  · exact agree_spelling .caret (fun _ _ => rfl) pos
  · rcases hrest.eat_cases (d := '<') (by decide) with ⟨after, rfl, heat, _⟩ | ⟨heat, hnone⟩
    · rw [heat]
      exact agree_spelling .shiftLeft (fun _ _ => rfl) pos
    · rw [heat]
      exact agree_readLonger hrest (by decide) rfl (fun _ => rfl) rfl (clear_or hnone)
  · rcases hrest.eat_cases (d := '>') (by decide) with ⟨after, rfl, heat, _⟩ | ⟨heat, hnone⟩
    · rw [heat]
      exact agree_spelling .shiftRight (fun _ _ => rfl) pos
    · rw [heat]
      exact agree_readLonger hrest (by decide) rfl (fun _ => rfl) rfl (clear_or hnone)
  · refine agree_readPair hrest (by decide) rfl (fun _ => rfl) fun hnone other after heq => ?_
    cases other <;> cases heq
    cases clear_cons.1 hnone
  · refine agree_readPair hrest (by decide) rfl (fun _ => rfl) fun hnone other after heq => ?_
    cases other <;> cases heq
    cases clear_cons.1 hnone
  · exact agree_spelling .comma (fun _ _ => rfl) pos
  · split
    · rename_i hpoints
      obtain ⟨after, rfl⟩ := (hrest.peek_eq_some_iff (by decide)).1 hpoints.1
      obtain ⟨after, rfl⟩ := ((hrest.tail (by decide)).peek_eq_some_iff (by decide)).1 hpoints.2
      exact agree_spelling .ellipsis (fun _ _ => rfl) pos
    · rename_i hpoints
      rw [scan?_dot]
      · exact .some ⟨rfl, .cons hc pos rest⟩
      · rintro after rfl
        apply hpoints
        rw [hrest.peek_eq_some_iff (by decide), (hrest.tail (by decide)).peek_eq_some_iff (by decide)]
        exact ⟨⟨_, rfl⟩, after, rfl⟩
  · rw [scan?_eq_none]
    · exact .none
    · intro sign after heq
      cases sign <;> cases heq <;> contradiction

theorem startsNumber_cons (c : Char) (rest : List Char) :
    startsNumber (c :: rest) = (c.isDigit || (c == '.' && rest.head?.any Char.isDigit)) := by
  by_cases hpoint : c = '.'
  · subst hpoint
    cases rest <;> rfl
  · rw [startsNumber_of_ne_point hpoint, beq_false_of_ne hpoint, Bool.false_and, Bool.or_false]

/-- Neither a character of several bytes nor its first byte starts a token. -/
theorem not_start_of_long (hc : 0x80 ≤ c.toNat) :
    c.isDigit = false ∧ (c == '.') = false ∧ isNameStart c = false ∧
      (c = '"' || c = '\'') = false ∧ Bracket.ofChar? c = none := by
  have hquote : Ascii fun c => c == '"' || c == '\'' := ascii_or_beq (ascii_beq (by decide)) (by decide)
  refine ⟨ascii_isDigit.eq_false hc, (ascii_beq (by decide)).eq_false hc, ascii_isNameStart.eq_false hc,
    hquote.eq_false hc, ?_⟩
  unfold Bracket.ofChar?
  split
  case h_5 => rfl
  all_goals exact absurd hc (by decide)

theorem scan_of_long (hc : 0x80 ≤ c.toNat) (start : Nat) (rest : List Char) :
    Token.scan start (c :: rest) = .error (.malformed (.invalidCharacter c) start) := by
  obtain ⟨hdigit, hpoint, hname, hquote, hbracket⟩ := not_start_of_long hc
  have hsymbol : Symbol.scan? (c :: rest) = none := by
    refine scan?_eq_none fun sign after heq => ?_
    cases sign <;> cases heq <;> exact absurd hc (by decide)
  simp [Token.scan, startsNumber_cons, hdigit, hpoint, hname, hquote, hbracket, hsymbol]

theorem readToken_of_long (h : At source start (c :: rest)) (hc : 0x80 ≤ c.toNat) :
    readToken source start = .error (.fault (.malformed (.invalidCharacter c) start)) := by
  obtain ⟨hdigit, hpoint, hname, hquote, hbracket⟩ := not_start_of_long (le_lead hc)
  unfold readToken
  rw [h.peek_cons, h.cut_end]
  simp [hdigit, hpoint, hname, hquote, hbracket, readSymbol_of_long (le_lead hc), bind, Except.bind]

theorem matches_readToken (h : At source start (c :: rest)) :
    Matches start (c :: rest) (readToken source start) (Token.scan start (c :: rest)) := by
  rcases Nat.lt_or_ge c.toNat 0x80 with hc | hlong
  · have hsymbol := agree_readSymbol h hc
    unfold readToken
    rw [h.peek_cons, lead_of_ascii hc]
    dsimp only
    rw [(h.tail hc).any_peek ascii_isDigit, ← startsNumber_cons, Token.scan]
    split
    · exact matches_readNumber h ‹_›
    split
    · exact matches_readName h
    split
    · exact matches_readString h hc
    cases Bracket.ofChar? c with
    | some bracket => exact .token ⟨rfl, .cons hc start rest⟩
    | none =>
      generalize readSymbol source c (start + 1) = read at hsymbol
      generalize Symbol.scan? (c :: rest) = scanned at hsymbol
      cases hsymbol with
      | some hagree => exact .token ⟨congrArg symbol hagree.1, hagree.2⟩
      | none =>
        rw [h.cut_end]
        exact .fault _
  · rw [readToken_of_long h hlong, scan_of_long hlong]
    exact .fault _

/-- The lexemes of a source are one token after the other, up to the end. -/
theorem lexemes_step (source : String) (pos : Nat) (opened : List Bracket) :
    lexemes source pos opened =
      readToken source (skipWhile source Lexeme.isSpacing pos) >>= fun (token, after) =>
        let start := skipWhile source Lexeme.isSpacing pos
        if token = .eof then
          match opened with
          | [] => .ok [⟨.eof, start⟩]
          | innermost :: _ => .error (.fault (.malformed (.neverClosed innermost) start))
        else match Lexeme.matchBrackets start opened token with
          | .error fault => .error (.fault fault)
          | .ok stillOpened => (lexemes source after stillOpened).map (⟨token, start⟩ :: ·) := by
  rw [lexemes.eq_def]
  dsimp only
  split
  · rename_i stop hread
    rw [hread]
    rfl
  · rename_i token after hread
    rw [hread]
    dsimp only [bind, Except.bind]
    split <;> rfl

theorem ascii_isSpacing : Ascii Lexeme.isSpacing := by
  have hblank : Ascii fun c => c == ' ' || c == '\t' :=
    ascii_or_beq (ascii_beq (by decide)) (by decide)
  exact ascii_or_beq (ascii_or_beq (ascii_or_beq hblank (by decide)) (by decide)) (by decide)

theorem At.spacing (h : At source pos text) (hdrop : text.dropWhile Lexeme.isSpacing = rest) :
    At source (pos + Utf8.size (text.takeWhile Lexeme.isSpacing)) rest := by
  rw [← h.skipWhile ascii_isSpacing, ← hdrop]
  exact h.passes (h.passes_skipWhile ascii_isSpacing)

/-- The bytes of a source are read as its characters are. -/
theorem lexemes_eq (h : At source pos text) (opened : List Bracket) :
    lexemes source pos opened = (Lexeme.listFrom pos opened text).mapError .fault := by
  fun_induction Lexeme.listFrom pos opened text with
  | case1 pos text start hdrop =>
    have hplace := h.spacing hdrop
    rw [lexemes_step, h.skipWhile ascii_isSpacing, readToken, hplace.peek_nil]
    rfl
  | case2 pos text start hdrop innermost others =>
    have hplace := h.spacing hdrop
    rw [lexemes_step, h.skipWhile ascii_isSpacing, readToken, hplace.peek_nil]
    rfl
  | case3 pos opened text start c tail hdrop fault hscan =>
    have hplace := h.spacing hdrop
    have hread := matches_readToken hplace
    rw [hscan] at hread
    rw [lexemes_step, h.skipWhile ascii_isSpacing, hread.eq_error]
    rfl
  | case4 pos opened text start c tail hdrop t rest hscan fault hmatch =>
    have hplace := h.spacing hdrop
    have hread := matches_readToken hplace
    rw [hscan] at hread
    obtain ⟨stop, hread, hpasses⟩ := hread.eq_ok
    rw [lexemes_step, h.skipWhile ascii_isSpacing, hread]
    dsimp only [bind, Except.bind]
    rw [if_neg (ne_eof_of_scan hscan), hmatch]
    rfl
  | case5 pos opened text start c tail hdrop t rest hscan stillOpened hmatch hlt stop ih =>
    have hplace := h.spacing hdrop
    have hread := matches_readToken hplace
    rw [hscan] at hread
    obtain ⟨after, hread, hpasses⟩ := hread.eq_ok
    have hstop : stop = after := hpasses.eq_stop
    rw [lexemes_step, h.skipWhile ascii_isSpacing, hread]
    dsimp only [bind, Except.bind]
    rw [if_neg (ne_eof_of_scan hscan), hmatch]
    dsimp only
    rw [← hstop, ih (hstop ▸ hplace.passes hpasses)]
    cases Lexeme.listFrom stop stillOpened rest <;> rfl

end Abacus.Bytes
