import MiniLua.Proofs.Syntax.Grammar
import MiniLua.Proofs.Text.Spaced
import MiniLua.Proofs.Twins.Compiling

/-!
Programs that return one number: the number is written behind the word `return`, with a minus before it
or without one. All of the program is code that returns a constant.
-/

namespace MiniLua

open Effects

def Numeral.toExpr (pos : Position) : Numeral → Expr
  | int i => .int i pos
  | float x => .float x pos

/-! ### Lexemes -/

namespace Lexer

/-- The program that returns what is written there. -/
def returning (text : Bytes) : Bytes := Bytes.ofText "return " ++ text

theorem scans_returning {text : Bytes} (htext : ∀ b ∈ text.head?, isBlank b = false) :
    ∃ c r, c.rest = text ∧ Scans c r ∧
      tokenize (returning text) = r.map (⟨.keyword .kwReturn, .start⟩ :: ·) := by
  have hscans := scans_tokenize (returning text)
  have hcursor : withoutHashLine (returning text) = ⟨returning text, .start⟩ := rfl
  rw [hcursor] at hscans
  obtain ⟨r, hr, heq⟩ := hscans.of_token (t := .keyword .kwReturn) (n := 6) rfl (List.cons_ne_nil _ _)
    fun _ _ ↦ rfl
  exact ⟨_, r, rfl, hr.of_gap (n := 0) (gap_space htext), heq⟩

theorem scans_number {c : Cursor} (h : Written c.rest (.number c.rest)) {r : Except SyntaxError (List Lexeme)}
    (hr : Scans c r) : ∃ last, r = .ok [⟨.number c.rest, c.pos⟩, ⟨.eof, last⟩] := by
  have hend : Separated [] := .inl rfl
  have hgap := gap_of_written h hend
  rw [List.append_nil] at hgap
  have hsome : c.rest ≠ [] := by
    obtain ⟨b, more, hrest, -⟩ := h.starts
    rw [hrest]
    exact List.cons_ne_nil b more
  have htoken (bound : Nat) (hbound : c.rest.length ≤ bound) :
      Lexer.token bound c.rest = .ok (.number c.rest, c.rest.length) := by
    rw [← List.append_nil c.rest] at hbound
    have hwritten := token_of_written hend h hbound
    rwa [List.append_nil] at hwritten
  obtain ⟨r', hr', rfl⟩ := hr.of_token hgap hsome htoken
  have hrest : (c.advance c.rest.length).rest = [] := List.drop_length
  rw [hr'.of_nil hrest]
  exact ⟨_, rfl⟩

theorem scans_minus {c : Cursor} {b : UInt8} {more : Bytes} (hrest : c.rest = 45 :: b :: more) (hb : b ≠ 45)
    {r : Except SyntaxError (List Lexeme)} (hr : Scans c r) :
    ∃ r', Scans (c.advance 1) r' ∧ r = r'.map (⟨.symbol .minus, c.pos⟩ :: ·) := by
  have hsome : c.rest ≠ [] := by
    rw [hrest]
    exact List.cons_ne_nil _ _
  have hgap : Lexer.gap c.rest = .ok 0 := by
    rw [hrest]
    unfold Lexer.gap
    split
    · next heq =>
      simp only [List.cons.injEq] at heq
      exact absurd heq.2.1 hb
    · rfl
  refine hr.of_token hgap hsome fun bound _ ↦ ?_
  rw [hrest]
  rfl

end Lexer

/-! ### Trees -/

namespace Parser

variable (below : Levels)

theorem infixes_eof (power bound chain : Nat) (lhs : Expr) (last : Position) :
    below.infixes power bound chain lhs [⟨.eof, last⟩] = .ok (lhs, [⟨.eof, last⟩]) := by
  cases bound <;> rfl

theorem simple_number {text : Bytes} {v : Numeral} (h : Numeral.literal? text = some v)
    (pos last : Position) :
    below.simple [⟨.number text, pos⟩, ⟨.eof, last⟩] = .ok (v.toExpr pos, [⟨.eof, last⟩]) := by
  have hpeek (f : Lexeme → Parser Expr) : (peek >>= f) [⟨.number text, pos⟩, ⟨.eof, last⟩] =
      f ⟨.number text, pos⟩ [⟨.number text, pos⟩, ⟨.eof, last⟩] := rfl
  have hskip (f : Unit → Parser Expr) : (skip >>= f) [⟨.number text, pos⟩, ⟨.eof, last⟩] =
      f () [⟨.eof, last⟩] := rfl
  rw [Levels.simple, hpeek]
  dsimp only
  rw [hskip, h]
  cases v <;> rfl

theorem operandBody_number {text : Bytes} {v : Numeral} (h : Numeral.literal? text = some v)
    (power : Nat) (pos last : Position) :
    below.operandBody power [⟨.number text, pos⟩, ⟨.eof, last⟩] = .ok (v.toExpr pos, [⟨.eof, last⟩]) := by
  have hread : below.operandBody power [⟨.number text, pos⟩, ⟨.eof, last⟩] =
      (below.simple [⟨.number text, pos⟩, ⟨.eof, last⟩] >>= fun p ↦
        below.infixes power below.bound 0 p.1 p.2) := rfl
  rw [hread, simple_number below h]
  exact infixes_eof ..

theorem operandBody_minus {lexemes : List Lexeme} {e : Expr} {last : Position}
    (h : below.operand unaryPower lexemes = .ok (e, [⟨.eof, last⟩])) (power : Nat) (pos : Position) :
    below.operandBody power (⟨.symbol .minus, pos⟩ :: lexemes) = .ok (.unary .neg e pos, [⟨.eof, last⟩]) := by
  have hread : below.operandBody power (⟨.symbol .minus, pos⟩ :: lexemes) =
      (below.operand unaryPower lexemes >>= fun p ↦
        below.infixes power below.bound 0 (.unary .neg p.1 pos) p.2) := rfl
  rw [hread, h]
  exact infixes_eof ..

/-- A token that an operand starts with. -/
def Opens (t : Token) : Prop := t = .symbol .minus ∨ ∃ text, t = .number text

/-- One operand is returned, and nothing follows it. -/
theorem blockBody_return {t : Token} (ht : Opens t) {lexemes : List Lexeme} {e : Expr}
    {pos last : Position} (h : below.operand 0 (⟨t, pos⟩ :: lexemes) = .ok (e, [⟨.eof, last⟩]))
    (start : Position) : below.blockBody (⟨.keyword .kwReturn, start⟩ :: ⟨t, pos⟩ :: lexemes) =
      .ok (.mk [.returnValues [e] start] start, [⟨.eof, last⟩]) := by
  have hexprs : below.exprs (⟨t, pos⟩ :: lexemes) = .ok ([e], [⟨.eof, last⟩]) := by
    refine bind_eq_ok.mpr ⟨e, _, h, ?_⟩
    cases below.bound <;> rfl
  have hreturn : below.returnStmt (⟨.keyword .kwReturn, start⟩ :: ⟨t, pos⟩ :: lexemes) =
      (below.exprs (⟨t, pos⟩ :: lexemes) >>= fun p ↦ (do
        let _ ← eat (.symbol .semicolon)
        unless ← blockEnds do unexpected "end"
        return .returnValues p.1 start : Parser Stmt) p.2) := by
    rcases ht with rfl | ⟨text, rfl⟩ <;> rfl
  have hstmts : below.stmts (below.bound + 1) [] (⟨.keyword .kwReturn, start⟩ :: ⟨t, pos⟩ :: lexemes) =
      (below.returnStmt (⟨.keyword .kwReturn, start⟩ :: ⟨t, pos⟩ :: lexemes) >>= fun p ↦
        .ok ([p.1], p.2)) := rfl
  rw [hreturn, hexprs] at hstmts
  exact bind_eq_ok.mpr ⟨start, _, rfl, bind_eq_ok.mpr ⟨_, _, hstmts, rfl⟩⟩

theorem parse_return {source : Bytes} {t : Token} (ht : Opens t) {lexemes : List Lexeme} {e : Expr}
    {start pos last : Position}
    (hsource : tokenize source = .ok (⟨.keyword .kwReturn, start⟩ :: ⟨t, pos⟩ :: lexemes))
    (h : ∀ bound, (levels bound 199).operand 0 (⟨t, pos⟩ :: lexemes) = .ok (e, [⟨.eof, last⟩])) :
    parse source = .ok (.mk [.returnValues [e] start] start) := by
  have hblock := blockBody_return (levels (lexemes.length + 2) 199) ht (h _) start
  have hchunk : parse source = (tokenize source >>= fun lexemes ↦
      ((levels lexemes.length 199).blockBody lexemes >>= fun p ↦ (do
        unless ← sees .eof do unexpected "<eof>"
        return p.1 : Parser Chunk) p.2).map Prod.fst) := rfl
  rw [hchunk, hsource]
  change (((levels (lexemes.length + 2) 199).blockBody _ >>= _).map Prod.fst) = _
  rw [hblock]
  rfl

end Parser

open Lexer

theorem parse_number {text : Bytes} {v : Numeral} (hstart : startsNumber text)
    (hliteral : Numeral.literal? text = some v) :
    ∃ start pos, parse (returning text) = .ok (.mk [.returnValues [v.toExpr pos] start] start) := by
  have hwritten : Written text (.number text) := .number hstart (by rw [hliteral]; rfl)
  obtain ⟨b, more, htext, hblank, -⟩ := hwritten.starts
  have hhead : ∀ b ∈ text.head?, isBlank b = false := by
    simp [htext, hblank]
  obtain ⟨c, r, rfl, hr, htokens⟩ := scans_returning hhead
  obtain ⟨last, rfl⟩ := scans_number hwritten hr
  exact ⟨_, _, Parser.parse_return (.inr ⟨_, rfl⟩) htokens fun bound ↦
    Parser.operandBody_number (Parser.levels bound 198) hliteral 0 _ last⟩

theorem parse_negative {text : Bytes} {v : Numeral} (hstart : startsNumber text)
    (hliteral : Numeral.literal? text = some v) : ∃ start pos pos', parse (returning (45 :: text)) =
      .ok (.mk [.returnValues [.unary .neg (v.toExpr pos) pos'] start] start) := by
  have hwritten : Written text (.number text) := .number hstart (by rw [hliteral]; rfl)
  obtain ⟨b, more, htext, hb⟩ := startsNumber_cases hstart
  have hdash : b ≠ 45 := by
    rintro rfl
    exact absurd hb (by decide)
  have hhead : ∀ b ∈ (45 :: text).head?, isBlank b = false := by
    intro b hb
    cases hb
    rfl
  obtain ⟨c, r, hrest, hr, htokens⟩ := scans_returning hhead
  obtain ⟨r', hr', rfl⟩ := scans_minus (hrest.trans (by rw [htext])) hdash hr
  have hnumber : (c.advance 1).rest = text := by
    rw [Cursor.advance, hrest]
    rfl
  obtain ⟨last, rfl⟩ := scans_number (hnumber ▸ hwritten) hr'
  rw [hnumber] at htokens
  exact ⟨_, _, _, Parser.parse_return (.inl rfl) htokens fun bound ↦ Parser.operandBody_minus (Parser.levels bound 198)
    (Parser.operandBody_number (Parser.levels bound 197) hliteral Parser.unaryPower _ last) 0 _⟩

/-! ### Code -/

/-- A main function that returns one constant. -/
def constantFunction (v : Value) (line : Nat) : Prototype :=
  ⟨"main chunk", 0, true, 0,
    #[.wide Opcode.loadConst.byte 0, ⟨Opcode.ret.byte, 1, 0, 0⟩, ⟨Opcode.ret.byte, 0, 0, 0⟩],
    #[v], #[], #[], #[line, line, line]⟩

theorem addConstant_first {b : Builder} (hb : b.constants = #[]) (v : Value) :
    b.addConstant v = .ok (0, { b with constants := #[v] }) := by
  have hfind : b.constants.findIdx? (· == v) = none := by
    rw [hb]
    exact Array.findIdx?_empty
  rw [Builder.addConstant, hfind, hb]
  rfl

theorem loadConst_first {s : Assembly} (hs : s.current.constants = #[]) (v : Value) :
    Emit.loadConst v s = .ok () { s with
      current := { s.current with constants := #[v] }.emit (.wide Opcode.loadConst.byte 0) } := by
  have hconst : Emit.constant v s = .ok 0 { s with current := { s.current with constants := #[v] } } := by
    rw [Emit.constant, Emit.tryBuild_apply, addConstant_first hs]
  rw [Emit.loadConst, bind_of_ok hconst]
  rfl

theorem compile_return {source : Bytes} {e : Expr} {v : Value} {start pos : Position}
    (hparse : parse source = .ok (.mk [.returnValues [e] start] pos)) (hmulti : e.isMulti = false)
    (hemit : e.emit (.exactly 1) = Emit.loadConst v) (chunkName : String) (heap : Heap) :
    compile source chunkName heap = .ok heap.protos.size
      (heap.allocProto (constantFunction v start.codeLine)).2 := by
  have hexprs : emitExprs .all 0 [e] = (do Emit.loadConst v; return (1, false)) := by
    simp only [emitExprs, hmulti, hemit]
    rfl
  rw [compile, hparse]
  dsimp only
  simp only [Emit.main, Block.emit, emitStmts, Stmt.emit, hexprs]
  simp only [Emit.inScope, bind_apply, Emit.setLine, Emit.build, modify_apply]
  rw [loadConst_first rfl]
  rfl

end MiniLua
