import MiniLua.Proofs.Names.Carries
import MiniLua.Proofs.Syntax.Grammar
import MiniLua.Proofs.Text.Splits

/-!
What a program assigns to has a name that can be written, so it is none of the variables that a numeric
loop counts in.
-/

namespace MiniLua

/-- What is written has a name that can be spelled, also in functions that are made. -/
inductive Mention.Spelled : Mention → Prop
  | bind (v : Variable) : Spelled (.bind v)
  | read (name : String) : Spelled (.read name)
  | write {name : String} (h : Lexer.IsName (Bytes.ofText name)) : Spelled (.write name)
  | make {params : List String} {variadic : Bool} {body : Block} {pos : Position}
      (h : ∀ o ∈ occurrences params body, o.mention.Spelled) : Spelled (.make (.mk params variadic body pos))

namespace Walk

/-- All that is noted between the two is spelled. -/
def Spells (w w' : Walk) : Prop := ∀ o ∈ w'.seen, o ∈ w.seen ∨ o.mention.Spelled

variable {w w' w'' : Walk}

theorem Spells.refl (w : Walk) : w.Spells w := fun _ ↦ .inl

theorem Spells.trans (h : w.Spells w') (h' : w'.Spells w'') : w.Spells w'' := fun o ho ↦
  (h' o ho).elim (h o) .inr

theorem Spells.leave (h : w.Spells w') (outer : Walk) : w.Spells (w'.leave outer) := h

theorem spells_note {m : Mention} (h : m.Spelled) (w : Walk) : w.Spells (w.note m) := by
  intro o ho
  obtain ho | ho := List.mem_append.mp ho
  · exact .inl ho
  · rw [List.mem_singleton.mp ho]
    exact .inr h

theorem spells_declare (w : Walk) (name : String) : w.Spells (w.declare name) := .refl w

theorem spells_declareAll (w : Walk) (names : List String) : w.Spells (w.declareAll names) := by
  rw [declareAll_eq]
  exact .refl w

theorem spells_bindAll (w : Walk) (vs : List Variable) : w.Spells (w.bindAll vs) := by
  induction vs generalizing w with
  | nil => exact .refl w
  | cons v vs ih => exact (spells_note (.bind v) w).trans (ih (w.note (.bind v)))

theorem spells_bindLast (w : Walk) (n : Nat) : w.Spells (w.bindLast n) := spells_bindAll w _

end Walk

namespace Lexer

end Lexer

namespace Parser

/-- What a level is made of when all that it assigns to is spelled. -/
def spelledParts (left : Nat) : Parts where
  Name n := Lexer.IsName (Bytes.ofText n)
  Operand e := ∀ w : Walk, w.Spells (e.walk w)
  Block b := ∀ w : Walk, w.Spells (b.walk w)
  left := left

variable {left : Nat} (w : Walk)

theorem spells_exprs {es : List Expr} (h : ∀ e ∈ es, ∀ w : Walk, w.Spells (e.walk w)) :
    w.Spells (walkExprs w es) := by
  induction es generalizing w with
  | nil => exact .refl w
  | cons e es ih =>
    obtain ⟨he, hes⟩ := List.forall_mem_cons.mp h
    exact (he w).trans (ih (e.walk w) hes)

theorem FunctionMade.spelled {f : FunctionBody} (h : FunctionMade (spelledParts left) f) :
    (Mention.make f).Spelled := by
  obtain ⟨params, variadic, body, pos, -, hbody⟩ := h
  refine .make fun o ho ↦ ?_
  obtain hstart | hspelled := hbody (.start params) o ho
  · rw [Walk.start, Walk.declareAll_eq] at hstart
    cases hstart
  · exact hspelled

theorem FieldMade.spells {fields : List Field} (h : ∀ f ∈ fields, FieldMade (spelledParts left) f) :
    w.Spells (walkFields w fields) := by
  induction fields generalizing w with
  | nil => exact .refl w
  | cons field fields ih =>
    obtain ⟨hfield, hfields⟩ := List.forall_mem_cons.mp h
    cases hfield with
    | item value hvalue => exact (hvalue w).trans (ih (value.walk w) hfields)
    | named name pos value hvalue => exact (hvalue w).trans (ih (value.walk w) hfields)
    | entry key value hkey hvalue =>
      exact ((hkey w).trans (hvalue (key.walk w))).trans (ih (value.walk (key.walk w)) hfields)

theorem TableMade.spells {e : Expr} (h : TableMade (spelledParts left) e) : w.Spells (e.walk w) := by
  obtain ⟨fields, pos, hfields⟩ := h
  exact FieldMade.spells w hfields

theorem ArgMade.spells {args : List Expr} (h : ∀ a ∈ args, ArgMade (spelledParts left) a) :
    w.Spells (walkExprs w args) := by
  refine spells_exprs w fun a ha w ↦ ?_
  cases h a ha with
  | string value pos => exact .refl w
  | table _ h => exact h.spells w
  | operand _ h => exact h w

theorem PrimaryMade.spells {e : Expr} (h : PrimaryMade (spelledParts left) e) :
    w.Spells (e.walk w) := by
  cases h with
  | name name pos => exact Walk.spells_note (.read name) w
  | paren inner pos h => exact h w

theorem SuffixedMade.spells {links : Nat} {e : Expr} (h : SuffixedMade (spelledParts left) links e) :
    w.Spells (e.walk w) := by
  induction h generalizing w with
  | primary e h => exact h.spells w
  | member key keyPos pos _ ih => exact ih w
  | @index links object key pos _ hkey ih => exact (ih w).trans (hkey (object.walk w))
  | @method links object args name pos _ hargs ih => exact (ih w).trans (ArgMade.spells _ hargs)
  | @call links object args pos _ hargs ih => exact (ih w).trans (ArgMade.spells _ hargs)

theorem SimpleMade.spells {e : Expr} (h : SimpleMade (spelledParts left) e) : w.Spells (e.walk w) := by
  cases h with
  | nil | bool | int | float | string | varargs => exact .refl w
  | function body h => exact Walk.spells_note h.spelled w
  | table _ h => exact h.spells w
  | suffixed _ h => exact h.spells w

theorem OperandMade.spells {chain : Nat} {e : Expr} (h : OperandMade (spelledParts left) chain e) :
    w.Spells (e.walk w) := by
  induction h generalizing w with
  | simple e h => exact h.spells w
  | unary op operand pos h => exact h w
  | @binary chain lhs op rhs pos _ _ hrhs ih => exact (ih w).trans (hrhs (lhs.walk w))

/-- What is assigned to is an element of a table, or has a name. -/
theorem SuffixedMade.spells_target {links : Nat} {e : Expr}
    (h : SuffixedMade (spelledParts left) links e) : w.Spells (e.walkTarget w) := by
  cases h with
  | primary e h =>
    cases h with
    | name name pos h => exact Walk.spells_note (.write h) w
    | paren inner pos h => exact .refl w
  | member key keyPos pos hobject => exact hobject.spells w
  | @index links object key pos hobject hkey => exact (hobject.spells w).trans (hkey (object.walk w))
  | method name pos hobject hargs => exact .refl w
  | call pos hobject hargs => exact .refl w

theorem spells_targets {targets : List Expr} (h : ∀ t ∈ targets, Target (spelledParts left) t) :
    w.Spells (walkTargets w targets) := by
  induction targets with
  | nil => exact .refl w
  | cons target rest ih =>
    obtain ⟨⟨links, -, htarget⟩, hrest⟩ := List.forall_mem_cons.mp h
    exact (ih hrest).trans (htarget.spells_target (walkTargets w rest))

theorem spells_branches {branches : List Branch}
    (h : ∀ b ∈ branches, BranchMade (spelledParts left) b) : w.Spells (walkBranches w branches) := by
  induction branches generalizing w with
  | nil => exact .refl w
  | cons branch rest ih =>
    obtain ⟨⟨cond, body, hcond, hbody⟩, hrest⟩ := List.forall_mem_cons.mp h
    exact ((hcond w).trans (hbody (cond.walk w))).trans (ih _ hrest)

theorem spelled_functionName {name : FunctionName} (h : Lexer.IsName (Bytes.ofText name.first)) :
    name.mention.Spelled := by
  unfold FunctionName.mention
  split
  · exact .write h
  · exact .read name.first

theorem StmtMade.spells {s : Stmt} (h : StmtMade (spelledParts left) s) : w.Spells (s.walk w) := by
  cases h with
  | declare names values pos _ hvalues =>
    exact ((spells_exprs w hvalues).trans (Walk.spells_declareAll _ names)).trans
      (Walk.spells_bindLast _ names.length)
  | declareFunction name body pos hname hbody =>
    exact ((Walk.spells_bindLast (w.declare name) 1).trans (Walk.spells_note hbody.spelled _)).trans
      (Walk.spells_note (.write hname) _)
  | defineFunction name body pos hname hbody =>
    exact (Walk.spells_note hbody.spelled w).trans (Walk.spells_note (spelled_functionName hname) _)
  | assign targets values pos htargets hvalues =>
    exact (spells_exprs w hvalues).trans (spells_targets _ htargets)
  | call call h =>
    obtain ⟨links, -, h⟩ := h
    exact h.spells w
  | block body h => exact h w
  | whileLoop cond body pos hcond hbody => exact (hcond w).trans (hbody (cond.walk w))
  | repeatLoop body cond pos hbody hcond =>
    obtain ⟨stmts, pos'⟩ := body
    have hstmts : w.Spells (walkStmts w stmts) := hbody w
    exact (hstmts.trans (hcond (walkStmts w stmts))).leave w
  | branch branches otherwise pos hbranches hotherwise =>
    refine (spells_branches w hbranches).trans ?_
    cases otherwise with
    | none => exact .refl _
    | some block => exact hotherwise block rfl _
  | numericFor var start limit step body pos _ hstart hlimit hstep hbody =>
    have hvalues : w.Spells (walkStep (limit.walk (start.walk w)) step) := by
      refine ((hstart w).trans (hlimit (start.walk w))).trans ?_
      cases step with
      | none => exact .refl _
      | some step => exact hstep step rfl _
    have hcounting := (hvalues.trans (Walk.spells_declareAll _
      ["(for index)", "(for limit)", "(for step)"])).trans (Walk.spells_bindLast _ 3)
    have hbegun := ((hcounting.trans (Walk.spells_note (.read "(for index)") _)).trans
      (Walk.spells_declare _ var)).trans (Walk.spells_bindLast _ 1)
    exact (hbegun.trans (hbody _)).leave w
  | genericFor names values body pos _ hvalues hbody => exact .refl w
  | returnValues values pos hvalues => exact spells_exprs w hvalues
  | breakLoop pos => exact .refl w

end Parser

end MiniLua
