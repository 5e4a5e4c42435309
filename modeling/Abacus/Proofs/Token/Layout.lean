import Abacus.Proofs.Text.Utf8
import Abacus.Proofs.Token.Written

namespace Abacus

open Text Token

theorem exists_of_map_eq_ok {ε α β : Type} {f : α → β} {x : Except ε α} {b : β}
    (h : x.map f = .ok b) : ∃ a, x = .ok a ∧ f a = b := by
  cases x with
  | error fault => cases h
  | ok a => exact ⟨a, rfl, Except.ok.inj h⟩

namespace Lexeme

/-- The lexeme at the front of a text and the text behind it, whichever brackets are open. At the end
of a text that is `eof`. -/
def scanNext (offset : Nat) (text : List Char) : Except Fault (Lexeme × List Char) :=
  let start := offset + Utf8.size (text.takeWhile isSpacing)
  (Token.scan start (text.dropWhile isSpacing)).map fun (token, rest) => (⟨token, start⟩, rest)

/-- The lexeme at the front of a text, with the brackets open behind it. -/
def readNext (offset : Nat) (opened : List Bracket) (text : List Char) :
    Except Fault (Lexeme × List Bracket × List Char) := do
  let (lexeme, rest) ← scanNext offset text
  let stillOpened ← matchBrackets lexeme.offset opened lexeme.token
  return (lexeme, stillOpened, rest)

/-- The offset behind a lexeme of a text, given what stands behind it. -/
def behind (lexeme : Lexeme) (text rest : List Char) : Nat :=
  lexeme.offset + (Utf8.size (text.dropWhile isSpacing) - Utf8.size rest)

variable {offset : Nat} {opened stillOpened : List Bracket} {text blanks w rest : List Char}
  {lexeme : Lexeme} {ls us : List Lexeme} {t : Token}

/-- The lexeme is read from a word behind blanks, and no more than the word is read. -/
structure Front (offset : Nat) (blanks w rest : List Char) (lexeme : Lexeme) : Prop where
  blank : ∀ c ∈ blanks, isSpacing c
  spells : Spells w lexeme.token
  ends : scan 0 (w ++ rest) = .ok (lexeme.token, rest)
  place : lexeme.offset = offset + Utf8.size blanks

theorem ne_eof_of_spells (h : Spells w t) : t ≠ .eof := by
  obtain ⟨_, _, _, _, hne⟩ := h.exists_cons
  exact hne

namespace Front

theorem dropWhile_eq (h : Front offset blanks w rest lexeme) :
    (blanks ++ w ++ rest).dropWhile isSpacing = w ++ rest := by
  obtain ⟨c, v, hw, hspacing, _⟩ := h.spells.exists_cons
  rw [List.append_assoc]
  refine dropWhile_append h.blank ?_
  rw [hw]
  exact clear_cons.2 hspacing

theorem takeWhile_eq (h : Front offset blanks w rest lexeme) :
    (blanks ++ w ++ rest).takeWhile isSpacing = blanks := by
  obtain ⟨c, v, hw, hspacing, _⟩ := h.spells.exists_cons
  rw [List.append_assoc]
  refine takeWhile_append h.blank ?_
  rw [hw]
  exact clear_cons.2 hspacing

theorem scanNext_eq (h : Front offset blanks w rest lexeme) :
    scanNext offset (blanks ++ w ++ rest) = .ok (lexeme, rest) := by
  have hscan := scan_offset h.ends (offset + Utf8.size blanks)
  rw [scanNext, h.takeWhile_eq, h.dropWhile_eq]
  dsimp only
  rw [hscan, ← h.place]
  rfl

theorem behind_eq (h : Front offset blanks w rest lexeme) :
    lexeme.behind (blanks ++ w ++ rest) rest = offset + Utf8.size (blanks ++ w) := by
  rw [behind, h.place, h.dropWhile_eq, Utf8.size_append, Utf8.size_append]
  omega

theorem length_lt (h : Front offset blanks w rest lexeme) :
    rest.length < (blanks ++ w ++ rest).length := by
  have hpos := List.length_pos_iff.2 h.spells.ne_nil
  rw [List.length_append, List.length_append]
  omega

end Front

theorem scanNext_of_blank (h : ∀ c ∈ text, isSpacing c) :
    scanNext offset text = .ok (⟨.eof, offset + Utf8.size text⟩, []) := by
  have htext := List.takeWhile_append_dropWhile (p := isSpacing) (l := text)
  rw [dropWhile_of_blank h, List.append_nil] at htext
  rw [scanNext, dropWhile_of_blank h, htext]
  rfl

/-- The next lexeme is the end behind blanks alone, or it is read from a word behind the blanks. -/
theorem scanNext_eq_ok (h : scanNext offset text = .ok (lexeme, rest)) :
    (∀ c ∈ text, isSpacing c) ∧ lexeme = ⟨.eof, offset + Utf8.size text⟩ ∧ rest = [] ∨
      ∃ blanks w, text = blanks ++ w ++ rest ∧ Front offset blanks w rest lexeme := by
  cases hdrop : text.dropWhile isSpacing with
  | nil =>
    have hblank := blank_of_dropWhile hdrop
    rw [scanNext_of_blank hblank] at h
    cases h
    exact .inl ⟨hblank, rfl, rfl⟩
  | cons c tail =>
    have htext := List.takeWhile_append_dropWhile (p := isSpacing) (l := text)
    rw [scanNext, hdrop] at h
    obtain ⟨⟨t, after⟩, hscan, heq⟩ := exists_of_map_eq_ok h
    cases heq
    obtain ⟨w, hspells, hword⟩ := exists_spells hscan
    rw [hword] at hscan
    rw [hdrop, hword, ← List.append_assoc] at htext
    refine .inr ⟨text.takeWhile isSpacing, w, htext.symm, ?_, hspells, scan_offset hscan 0, rfl⟩
    exact List.all_eq_true.1 List.all_takeWhile

theorem length_scanNext_lt (h : scanNext offset text = .ok (lexeme, rest))
    (hne : lexeme.token ≠ .eof) : rest.length < text.length := by
  rcases scanNext_eq_ok h with ⟨_, rfl, _⟩ | ⟨blanks, w, rfl, hfront⟩
  · exact absurd rfl hne
  · exact hfront.length_lt

/-- Reading a text is reading lexemes one after the other, up to `eof`. -/
theorem listFrom_eq (offset : Nat) (opened : List Bracket) (text : List Char) :
    listFrom offset opened text =
      readNext offset opened text >>= fun (lexeme, stillOpened, rest) =>
        if lexeme.token = .eof then
          match stillOpened with
          | [] => .ok [lexeme]
          | innermost :: _ => .error (.malformed (.neverClosed innermost) lexeme.offset)
        else (listFrom (lexeme.behind text rest) stillOpened rest).map (lexeme :: ·) := by
  rw [listFrom.eq_def]
  unfold readNext scanNext
  dsimp only
  split
  · rename_i hdrop
    rw [hdrop]
    cases opened <;> rfl
  · rename_i c tail hdrop
    rw [hdrop]
    split
    · rename_i hscan
      rw [hscan]
      rfl
    · rename_i token rest hscan
      rw [hscan]
      have hne := ne_eof_of_scan hscan
      split
      · rename_i hmatch
        dsimp only [Except.map, bind, Except.bind]
        rw [hmatch]
      · rename_i hmatch
        dsimp only [Except.map, bind, Except.bind, pure, Except.pure]
        rw [hmatch]
        dsimp only
        rw [if_neg hne, behind, hdrop]

/-- The lexemes of a text that starts at `offset`, with brackets like any other token. -/
def scanAll (offset : Nat) (text : List Char) : Except Fault (List Lexeme) :=
  match _hnext : scanNext offset text with
  | .error fault => .error fault
  | .ok (lexeme, rest) =>
    if _hend : lexeme.token = .eof then .ok [lexeme]
    else (scanAll (lexeme.behind text rest) rest).map (lexeme :: ·)
termination_by text.length
decreasing_by exact length_scanNext_lt ‹_› ‹_›

/-- Brackets that match do not change what is read. -/
theorem scanAll_of_listFrom (h : listFrom offset opened text = .ok ls) :
    scanAll offset text = .ok ls := by
  fun_induction scanAll offset text generalizing opened ls with
  | case1 offset text fault hnext =>
    rw [listFrom_eq, readNext, hnext] at h
    cases h
  | case2 offset text lexeme rest hnext hend =>
    obtain ⟨t, start⟩ := lexeme
    subst hend
    rw [listFrom_eq, readNext, hnext] at h
    cases opened with
    | cons innermost others => cases h
    | nil => exact h
  | case3 offset text lexeme rest hnext hend ih =>
    rw [listFrom_eq, readNext, hnext] at h
    dsimp only [bind, Except.bind] at h
    cases hmatch : matchBrackets lexeme.offset opened lexeme.token with
    | error fault =>
      rw [hmatch] at h
      cases h
    | ok stillOpened =>
      rw [hmatch] at h
      dsimp only [pure, Except.pure] at h
      rw [if_neg hend] at h
      obtain ⟨others, hothers, rfl⟩ := exists_of_map_eq_ok h
      rw [ih hothers]
      rfl

/-- The text is the tokens of the lexemes, each where its lexeme says. -/
inductive Stands : (offset : Nat) → List Lexeme → List Char → Prop where
  | blank {offset : Nat} {text : List Char} (blank : ∀ c ∈ text, isSpacing c) :
      Stands offset [] text
  | token {offset : Nat} {blanks w rest : List Char} {lexeme : Lexeme} {us : List Lexeme}
      (front : Front offset blanks w rest lexeme)
      (others : Stands (offset + Utf8.size (blanks ++ w)) us rest) :
      Stands offset (lexeme :: us) (blanks ++ w ++ rest)

/-- What is read stands in the text, and the end is behind all of it. -/
theorem exists_stands (h : scanAll offset text = .ok ls) :
    ∃ us, ls = us ++ [⟨.eof, offset + Utf8.size text⟩] ∧ Stands offset us text := by
  fun_induction scanAll offset text generalizing ls with
  | case1 => cases h
  | case2 offset text lexeme rest hnext hend =>
    cases h
    rcases scanNext_eq_ok hnext with ⟨hblank, rfl, _⟩ | ⟨blanks, w, rfl, hfront⟩
    · exact ⟨[], rfl, .blank hblank⟩
    · exact absurd hend (ne_eof_of_spells hfront.spells)
  | case3 offset text lexeme rest hnext hend ih =>
    obtain ⟨others, hothers, rfl⟩ := exists_of_map_eq_ok h
    rcases scanNext_eq_ok hnext with ⟨_, rfl, _⟩ | ⟨blanks, w, rfl, hfront⟩
    · exact absurd rfl hend
    · obtain ⟨us, rfl, hus⟩ := ih hothers
      rw [hfront.behind_eq] at hus ⊢
      refine ⟨lexeme :: us, ?_, .token hfront hus⟩
      rw [Utf8.size_append (blanks ++ w), Nat.add_assoc]
      rfl

namespace Stands

theorem eof_notMem (h : Stands offset us text) : .eof ∉ tokens us := by
  induction h with
  | blank => exact List.not_mem_nil
  | token front _ ih =>
    rw [tokens_cons, List.mem_cons, not_or]
    exact ⟨(ne_eof_of_spells front.spells).symm, ih⟩

/-- No lexeme stands before its text, and each stands before those behind it and before the end. -/
theorem pairwise (h : Stands offset us text) :
    (∀ place ∈ us.map Lexeme.offset ++ [offset + Utf8.size text], offset ≤ place) ∧
      (us.map Lexeme.offset ++ [offset + Utf8.size text]).Pairwise (· < ·) := by
  induction h with
  | blank => exact ⟨by simp, List.pairwise_singleton _ _⟩
  | @token offset blanks w rest lexeme us front _ ih =>
    obtain ⟨hbehind, hordered⟩ := ih
    have hsize := Utf8.size_pos front.spells.ne_nil
    have hplace := front.place
    rw [Nat.add_assoc, ← Utf8.size_append] at hbehind hordered
    rw [List.map_cons, List.cons_append]
    constructor
    · rw [List.forall_mem_cons]
      refine ⟨by omega, fun place hmem => ?_⟩
      exact Nat.le_trans (Nat.le_add_right _ _) (hbehind place hmem)
    · rw [List.pairwise_cons]
      refine ⟨fun place hmem => ?_, hordered⟩
      have hle := hbehind place hmem
      rw [Utf8.size_append] at hle
      omega

end Stands

/-- A word of a text with the blanks before it, and the token that it is read as. -/
structure Piece where
  blanks : List Char
  word : List Char
  token : Token

def Piece.chars (p : Piece) : List Char := p.blanks ++ p.word

/-- The lexemes of pieces that stand one after the other, and of the end behind the last blanks. -/
def layOut (offset : Nat) : List Piece → List Char → List Lexeme
  | [], last => [⟨.eof, offset + Utf8.size last⟩]
  | p :: ps, last =>
    ⟨p.token, offset + Utf8.size p.blanks⟩ :: layOut (offset + Utf8.size p.chars) ps last

/-- A text with lexemes in it is cut into pieces, and the lexemes are theirs. -/
theorem Stands.exists_pieces (h : Stands offset us text) :
    ∃ ps last, text = ps.flatMap Piece.chars ++ last ∧ (∀ c ∈ last, isSpacing c) ∧
      (∀ p ∈ ps, (∀ c ∈ p.blanks, isSpacing c) ∧ Spells p.word p.token) ∧
      us ++ [⟨.eof, offset + Utf8.size text⟩] = layOut offset ps last := by
  induction h with
  | @blank offset text hblank => exact ⟨[], text, rfl, hblank, List.forall_mem_nil _, rfl⟩
  | @token offset blanks w rest lexeme us front _ ih =>
    obtain ⟨ps, last, htext, hlast, hps, hus⟩ := ih
    let p : Piece := ⟨blanks, w, lexeme.token⟩
    refine ⟨p :: ps, last, ?_, hlast, List.forall_mem_cons.2 ⟨⟨front.blank, front.spells⟩, hps⟩, ?_⟩
    · rw [List.flatMap_cons, List.append_assoc p.chars, ← htext]
      rfl
    · rw [layOut, Piece.chars, ← hus, ← front.place, Utf8.size_append (blanks ++ w), Nat.add_assoc]
      rfl

/-- The brackets that must be open for a token to be read. -/
def needed : Token → List Bracket
  | .closing bracket => [bracket]
  | _ => []

theorem exists_matchBrackets (t : Token) (offset : Nat) :
    ∃ stillOpened, matchBrackets offset (needed t) t = .ok stillOpened := by
  cases t with
  | closing bracket => exact ⟨[], if_pos rfl⟩
  | opening bracket => exact ⟨[bracket], rfl⟩
  | _ => exact ⟨[], rfl⟩

/-- A word alone is read as its token, and as no more than that. -/
theorem readNext_word (h : Spells w t) :
    ∃ stillOpened, readNext 0 (needed t) w = .ok (⟨t, 0⟩, stillOpened, []) := by
  obtain ⟨stillOpened, hmatch⟩ := exists_matchBrackets t 0
  have hfront : Front 0 [] w [] ⟨t, 0⟩ :=
    ⟨List.forall_mem_nil _, h, h.scan 0 [] clear_nil, rfl⟩
  have hnext := hfront.scanNext_eq
  rw [List.nil_append, List.append_nil] at hnext
  refine ⟨stillOpened, ?_⟩
  rw [readNext, hnext]
  dsimp only [bind, Except.bind]
  rw [hmatch]
  rfl

theorem mem_of_isSpacing {c : Char} (h : isSpacing c) : c ∈ [' ', '\t', '\x0c', '\r', '\n'] := by
  simpa [isSpacing, or_assoc] using h

/-- Reading a text loses nothing, adds nothing and keeps the order. -/
theorem list_lossless {source : String} (h : Lexeme.list source = .ok ls) :
    (ls.map Lexeme.offset).Pairwise (· < ·) ∧
      (∃ us, ls = us ++ [⟨.eof, source.utf8ByteSize⟩] ∧ .eof ∉ tokens us) ∧
      ∃ (ps : List Piece) (last : List Char),
        source.toList = ps.flatMap Piece.chars ++ last ∧ ls = layOut 0 ps last ∧
        (∀ c ∈ last, c ∈ [' ', '\t', '\x0c', '\r', '\n']) ∧
        ∀ p ∈ ps, (∀ c ∈ p.blanks, c ∈ [' ', '\t', '\x0c', '\r', '\n']) ∧
          ∃ stillOpened, readNext 0 (needed p.token) p.word = .ok (⟨p.token, 0⟩, stillOpened, []) := by
  obtain ⟨us, rfl, hus⟩ := exists_stands (scanAll_of_listFrom h)
  obtain ⟨ps, last, htext, hlast, hps, hlayOut⟩ := hus.exists_pieces
  have hordered := hus.pairwise.2
  rw [Nat.zero_add, ← Text.utf8ByteSize_eq_size] at hordered hlayOut ⊢
  refine ⟨?_, ⟨us, rfl, hus.eof_notMem⟩, ps, last, htext, hlayOut, ?_, ?_⟩
  · rwa [List.map_append]
  · exact fun c hc => mem_of_isSpacing (hlast c hc)
  · intro p hp
    obtain ⟨hblank, hspells⟩ := hps p hp
    exact ⟨fun c hc => mem_of_isSpacing (hblank c hc), readNext_word hspells⟩

/-- A bracket in a string is none, and a character may take several bytes. -/
theorem list_lossless_quoted :
    let source := " ('é)'+\n1) "
    let ls : List Lexeme := [⟨.opening .round, 1⟩, ⟨.str "é)", 2⟩, ⟨.symbol .plus, 7⟩, ⟨.int 1, 9⟩,
      ⟨.closing .round, 10⟩, ⟨.eof, 12⟩]
    Lexeme.list source = .ok ls ∧
      (ls.map Lexeme.offset).Pairwise (· < ·) ∧
      (∃ us, ls = us ++ [⟨.eof, source.utf8ByteSize⟩] ∧ .eof ∉ tokens us) ∧
      ∃ (ps : List Piece) (last : List Char),
        source.toList = ps.flatMap Piece.chars ++ last ∧ ls = layOut 0 ps last ∧
        (∀ c ∈ last, c ∈ [' ', '\t', '\x0c', '\r', '\n']) ∧
        ∀ p ∈ ps, (∀ c ∈ p.blanks, c ∈ [' ', '\t', '\x0c', '\r', '\n']) ∧
          ∃ stillOpened, readNext 0 (needed p.token) p.word = .ok (⟨p.token, 0⟩, stillOpened, []) := by
  intro source ls
  have hlist : Lexeme.list source = .ok ls := eq_ok_of_toOption (by decide +kernel)
  exact ⟨hlist, list_lossless hlist⟩

end Lexeme

end Abacus
