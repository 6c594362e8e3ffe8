import MiniLua.Proofs.Meaning.Results
import MiniLua.Proofs.Number.Floats
import MiniLua.Proofs.Stack.Passes

/-! The code of an expression leaves the values that the expression means. -/

namespace MiniLua

open Effects Machine Eval

/-- A literal has the value that its negation has as a constant. -/
theorem eval_negatedLiteral {o : UnaryOp} {operand : Expr} {v : Value} (c : Context) (env : Bindings)
    (w : World) (h : negatedLiteral? o operand = some v) :
    (do
      let x ← one (operand.eval c env (.exactly 1))
      return [← act (o.apply x)] : Eval (List Value)) w = .ok [v] w := by
  have hnegate {x : Value} (hx : Operators.negate w.machine.heap x = .ok v) :
      act (UnaryOp.neg.apply x) w = .ok v w := by
    simp only [act, UnaryOp.apply, bind_apply, get_apply, hx]
    rfl
  unfold negatedLiteral? at h
  split at h
  · next i _ =>
    obtain ⟨j, hj, rfl⟩ := Option.map_eq_some_iff.mp h
    have hx : Operators.negate w.machine.heap (.int i) = .ok (.int j) := by
      simp [Operators.negate, Heap.number?, hj]
    rw [Expr.eval]
    refine (bind_of_ok (a := Value.int i) rfl).trans ?_
    rw [bind_of_ok (hnegate hx)]
    rfl
  · next x _ =>
    cases h
    have hx : Operators.negate w.machine.heap (.ofFloat x) = .ok (.ofFloat (-x)) := by
      simp [Operators.negate, Heap.number?, Value.ofFloat, Value.toFloat, Value.float?]
    rw [Expr.eval]
    refine (bind_of_ok (a := Value.ofFloat x) rfl).trans ?_
    rw [bind_of_ok (hnegate hx)]
    rfl
  · cases h

theorem handle?_of_negatedLiteral {o : UnaryOp} {operand : Expr} {v : Value}
    (h : negatedLiteral? o operand = some v) : v.handle? = none := by
  unfold negatedLiteral? at h
  split at h
  · obtain ⟨j, -, rfl⟩ := Option.map_eq_some_iff.mp h
    rfl
  · cases h
    rfl
  · cases h

namespace Heap

variable (h : Heap) (t : Nat)

theorem modifyTable_id : h.modifyTable t id = h := by
  have htables : h.tables.modify t id = h.tables := by
    apply Array.ext'
    rw [Array.toList_modify, List.modify_id]
  rw [modifyTable, htables]

theorem modifyTable_modifyTable (f g : Table → Table) :
    (h.modifyTable t f).modifyTable t g = h.modifyTable t (g ∘ f) := by
  have htables : (h.tables.modify t f).modify t g = h.tables.modify t (g ∘ f) := by
    apply Array.ext'
    simp only [Array.toList_modify, List.modify_modify_eq]
  simp only [modifyTable, htables]

end Heap

/-- The table with these values from index `next` on. -/
def Table.filled (t : Table) (next : Nat) (vs : List Value) : Table :=
  (vs.zipIdx next).foldl (fun t (v, i) ↦ t.set (.int (Int64.ofNat i)) v) t

theorem fill_apply {t next : Nat} {vs : List Value} {w : World} (ht : t < w.machine.heap.tables.size) :
    fill (.table t) next vs w =
      act (changeHeap fun h ↦ h.modifyTable t (·.filled next vs)) w := by
  induction vs generalizing next w with
  | nil =>
    have hid : w.machine.heap.modifyTable t (·.filled next []) = w.machine.heap :=
      w.machine.heap.modifyTable_id t
    simp only [act, changeHeap, modify_apply, hid]
    rfl
  | cons v vs ih =>
    have hset : setIndex (.table t) (.int (Int64.ofNat next)) v w.machine = .ok () { w.machine with
        heap := w.machine.heap.modifyTable t (·.set (.int (Int64.ofNat next)) v) } := by
      simp only [setIndex, Key.ofValue?, bind_apply, get_apply, if_pos ht]
      rfl
    rw [fill, bind_of_ok (by rw [act, hset]), ih (by simpa [Heap.modifyTable] using ht)]
    simp only [act, changeHeap, modify_apply, Heap.modifyTable_modifyTable]
    rfl

namespace Spot.Fits

variable {p : Spot} {U : Home} {code : Heap} {c : Context} (h : p.Fits U code c)

include h

theorem few : U.proto.protos.size < Instruction.wideLimit := by
  obtain ⟨m, hm, hshort⟩ := h.short
  exact (hshort.proto hm).protos

theorem fewCode : U.proto.code.size < Instruction.wideLimit := by
  obtain ⟨m, hm, hshort⟩ := h.short
  exact (hshort.proto hm).code

/-- A place in the code can be told by a wide operand. -/
theorem lt_of_has {op : Opcode} {operands : Instruction → Prop} {pc pc' : Nat}
    (hhas : U.Has op operands pc pc') : pc < Instruction.wideLimit := by
  obtain ⟨-, i, hi, -⟩ := hhas
  exact (Array.getElem?_eq_some_iff.mp hi).1.trans h.fewCode

end Spot.Fits

section

variable {natives : Array Native} {code : Heap} {p : Spot} {U : Home} {c : Context}
  {locals : List Local} {env : Bindings} {cells : Array (Option Nat)}

section

variable {pc pc' k : Nat} {S S' : Array Value} {w : World} {s : State}

theorem Spot.Runs.fills {t t' next : Nat} {vs vs' : List Value}
    (h : p.Runs natives code U c locals env cells pc S w s) (hhas : U.Wide .setList next pc pc')
    (hS : S = S'.push (.table t') ++ vs') (hcount : s.lastMulti = vs'.length)
    (ht : w.Same natives s (.table t) (.table t')) (hvs : List.Forall₂ (w.Same natives s) vs vs') :
    Meets natives code k w s (fun _ _ u ↦ p.At U pc' cells (S'.push (.table t')) u)
      (fill (.table t) next vs w) := by
  subst hS
  cases ht with
  | table hi hi' =>
    rw [fill_apply hi]
    refine h.does hhas (changeHeap fun h ↦ h.modifyTable t (·.filled next vs'))
      (fun i hx ↦ ?_) fun htallies ↦ ?_
    · rw [← hx]
      exact perform_setList rfl hcount hi'
    · exact Tallied.changeHeap htallies (htallies.heap.modifyTable t fun _ _ htable ↦
        htable.setAll htallies.heap.pairing hvs next) (.modifyTable _ _ _) (.modifyTable _ _ _)
        ⟨rfl, rfl⟩ ⟨rfl, rfl⟩

/-- One value where one is wanted. -/
theorem Meets.toOne {e : Expr} {m : Eval (List Value)}
    (h : Meets natives code k w s
      (fun vs w t ↦ p.Leaves natives U pc cells S vs w t ∧ e.Yields (.exactly 1) vs t) (m w)) :
    Meets natives code k w s (p.LeavesOne natives U pc cells S) (Eval.one m w) :=
  (h.mono fun _ _ _ _ ⟨hleaves, hyields⟩ ↦ ⟨hleaves, hyields.length_eq_one⟩).one

end

mutual

theorem Expr.meets (hcalls : c.CallsMeet natives code) : ∀ (e : Expr) {want : Want} {pc pc' : Nat} {S : Array Value} {w : World} {s : State},
    e.At U locals want pc pc' → p.Runs natives code U c locals env cells pc S w s →
    Meets natives code c.rounds w s
      (fun vs w t ↦ p.Leaves natives U pc' cells S vs w t ∧ e.Yields want vs t) (e.eval c env want w)
  | .nil _, _, _, _, _, _, _, he, h => by
    rw [Expr.eval]
    exact (h.pushes he (fun i hi ↦ by rw [perform_loadNil, hi]; rfl) .nil).single
  | .bool true _, _, _, _, _, _, _, he, h => by
    rw [Expr.eval]
    exact (h.pushes he (fun _ _ ↦ perform_loadTrue) (.bool true)).single
  | .bool false _, _, _, _, _, _, _, he, h => by
    rw [Expr.eval]
    exact (h.pushes he (fun _ _ ↦ perform_loadFalse) (.bool false)).single
  | .int i _, _, _, _, _, _, _, he, h => by
    rw [Expr.eval]
    exact (h.loads he rfl).single
  | .float x _, _, _, _, _, _, _, he, h => by
    rw [Expr.eval]
    exact (h.loads he rfl).single
  | .string bytes _, _, _, _, _, _, _, he, h => by
    rw [Expr.eval]
    exact (h.loadsText he).single
  | .varargs _, _, _, _, _, _, _, he, h => by
    rw [Expr.eval]
    exact h.expands he
  | .name name _, _, _, _, _, _, _, he, h => by
    rw [Expr.eval]
    exact (h.loadsName he).single
  | .index object key _, _, _, _, _, _, _, he, h => by
    obtain ⟨q, r, hobject, hkey, hhas⟩ := he
    rw [Expr.eval]
    refine (object.meets hcalls hobject h).toOne.bind fun o w₁ t₁ hlater₁ hshows₁ hleft ↦ ?_
    obtain ⟨o', ho, hat₁⟩ := hleft
    have h₁ := h.onward hlater₁ hshows₁ hat₁
    refine (key.meets hcalls hkey h₁).toOne.bind fun k w₂ t₂ hlater₂ hshows₂ hleft ↦ ?_
    obtain ⟨k', hk, hat₂⟩ := hleft
    have h₂ := h₁.onward hlater₂ hshows₂ hat₂
    exact (h₂.indexes hhas rfl (hlater₂.matches_mono ho) hk).single
  | .call callee args _, _, _, _, _, _, _, he, h => by
    obtain ⟨q, r, n, multi, hcallee, hargs, hcall⟩ := he
    rw [Expr.eval]
    refine (callee.meets hcalls hcallee h).toOne.bind fun f w₁ t₁ hlater₁ hshows₁ hleft ↦ ?_
    obtain ⟨f', hf, hat₁⟩ := hleft
    have h₁ := h.onward hlater₁ hshows₁ hat₁
    refine (meets_exprs hcalls args hargs rfl .nil h₁).bind
      fun vs w₂ t₂ hlater₂ hshows₂ hleft ↦ ?_
    obtain ⟨vs', hvs, hat₂, hcount⟩ := hleft
    have h₂ := h₁.onward hlater₂ hshows₂ hat₂
    exact h₂.calls hcalls hcall rfl hcount (hlater₂.matches_mono hf) hvs
  | .method object name args _, _, _, _, _, _, _, he, h => by
    obtain ⟨q, r, u, i, n, multi, hobject, htext, hself, hargs, hcall⟩ := he
    rw [Expr.eval]
    refine (object.meets hcalls hobject h).toOne.bind fun o w₁ t₁ hlater₁ hshows₁ hleft ↦ ?_
    obtain ⟨o', ho, hat₁⟩ := hleft
    have h₁ := h.onward hlater₁ hshows₁ hat₁
    refine (h₁.selects htext hself rfl ho).bind fun f w₂ t₂ hlater₂ hshows₂ hleft ↦ ?_
    obtain ⟨both, hboth, hat₂⟩ := hleft
    obtain ⟨f', rest, hf, hrest, rfl⟩ := List.forall₂_cons_left_iff.mp hboth
    obtain ⟨o', rest, ho, hnone, rfl⟩ := List.forall₂_cons_left_iff.mp hrest
    obtain rfl := List.forall₂_nil_left_iff.mp hnone
    have h₂ := h₁.onward hlater₂ hshows₂ hat₂
    refine (meets_exprs hcalls args hargs rfl .nil h₂).bind
      fun vs w₃ t₃ hlater₃ hshows₃ hleft ↦ ?_
    obtain ⟨vs', hvs, hat₃, hcount⟩ := hleft
    have h₃ := h₂.onward hlater₃ hshows₃ hat₃
    have hcount' : n + 1 + (if multi then t₃.lastMulti else 0) = (o' :: vs').length := by
      rw [List.length_cons]
      omega
    exact h₃.calls hcalls hcall rfl hcount' (hlater₃.matches_mono hf) (.cons (hlater₃.matches_mono ho) hvs)
  | .function body, _, _, _, _, _, _, he, h => by
    rw [Expr.eval]
    exact (h.closes he).single
  | .table fields _, _, _, _, _, _, _, he, h => by
    obtain ⟨q, hnew, hfields⟩ := he
    rw [Expr.eval]
    refine (h.makesTable hnew).bind fun t w₁ t₁ hlater₁ hshows₁ hleft ↦ ?_
    obtain ⟨⟨t', ht, hat₁⟩, i, hi⟩ := hleft
    subst hi
    have h₁ := h.onward hlater₁ hshows₁ hat₁
    obtain ⟨j, rfl⟩ : ∃ j, t' = .table j := by
      cases ht
      exact ⟨_, rfl⟩
    have hq : 1 ≤ q := by
      obtain ⟨rfl, -⟩ := hnew
      omega
    refine (meets_fields hcalls fields hfields h₁ ht hq).bind fun _ w₂ t₂ hlater₂ hshows₂ hat₂ ↦ ?_
    exact .pure hshows₂ ⟨Spot.leavesOne_iff.mp ⟨_, hlater₂.matches_mono ht, hat₂⟩, rfl⟩
  | .binary o lhs rhs _, _, _, _, _, _, _, he, h => by
    rw [Expr.At] at he
    rw [Expr.eval]
    split at he
    · next op ho =>
      obtain ⟨q, r, hlhs, hrhs, hhas⟩ := he
      refine (lhs.meets hcalls hlhs h).toOne.bind fun a w₁ t₁ hlater₁ hshows₁ hleft ↦ ?_
      obtain ⟨a', ha, hat₁⟩ := hleft
      have h₁ := h.onward hlater₁ hshows₁ hat₁
      rw [if_neg (by simp [BinaryOp.settles_eq_false ho])]
      refine (rhs.meets hcalls hrhs h₁).toOne.bind fun b w₂ t₂ hlater₂ hshows₂ hleft ↦ ?_
      obtain ⟨b', hb, hat₂⟩ := hleft
      have h₂ := h₁.onward hlater₂ hshows₂ hat₂
      exact (h₂.operates ho hhas rfl (hlater₂.matches_mono ha) hb).single
    · next ho =>
      obtain ⟨q, r, hlhs, hjump, hrhs⟩ := he
      refine (lhs.meets hcalls hlhs h).toOne.bind fun a w₁ t₁ hlater₁ hshows₁ hleft ↦ ?_
      obtain ⟨a', ha, hat₁⟩ := hleft
      refine (hat₁.shortcuts hshows₁ ho hjump rfl ha).followed fun t₂ hlater₂ hshows₂ hat₂ ↦ ?_
      cases hsettles : o.settles a with
      | true =>
        rw [hsettles, if_pos rfl] at hat₂
        exact .pure hshows₂ ⟨Spot.leavesOne_iff.mp ⟨a', hlater₂.matches_mono ha, hat₂⟩, rfl⟩
      | false =>
        rw [hsettles, if_neg (by simp)] at hat₂
        have h₂ := h.onward (hlater₁.trans hlater₂) hshows₂ hat₂
        refine (rhs.meets hcalls hrhs h₂).toOne.bind fun b w₃ t₃ _ hshows₃ hleaves ↦ ?_
        refine .bind_eq (by rw [act, BinaryOp.apply_of_not_settles ho hsettles]) ?_
        exact .pure hshows₃ ⟨Spot.leavesOne_iff.mp hleaves, rfl⟩
  | .unary o operand _, _, _, _, _, _, _, he, h => by
    rw [Expr.At] at he
    rw [Expr.eval]
    split at he
    · next v hv =>
      rw [eval_negatedLiteral c env _ hv]
      exact (h.loads he (handle?_of_negatedLiteral hv)).single
    · obtain ⟨q, hoperand, hhas⟩ := he
      refine (operand.meets hcalls hoperand h).toOne.bind fun v w₁ t₁ hlater₁ hshows₁ hleft ↦ ?_
      obtain ⟨v', hv, hat₁⟩ := hleft
      exact ((h.onward hlater₁ hshows₁ hat₁).operatesUnary hhas rfl hv).single
  | .paren inner _, _, _, _, _, _, _, he, h => by
    rw [Expr.eval]
    exact (inner.meets hcalls he h).toOne.single

theorem meets_exprs (hcalls : c.CallsMeet natives code) : ∀ (es : List Expr) {want : Want} {pushed pc pc' n : Nat} {multi : Bool}
    {S : Array Value} {vs₀ vs₀' : List Value} {w : World} {s : State},
    exprsAt U locals want pushed es pc pc' n multi → vs₀'.length = pushed →
    List.Forall₂ (w.Same natives s) vs₀ vs₀' →
    p.Runs natives code U c locals env cells pc (S ++ vs₀') w s →
    Meets natives code c.rounds w s
      (fun vs w t ↦ ∃ vs', List.Forall₂ (w.Same natives t) (adjusted (vs₀ ++ vs) want.count?) vs' ∧
        p.At U pc' cells (S ++ vs') t ∧ n + (if multi then t.lastMulti else 0) = vs'.length)
      (evalExprs c env (want.behind pushed) es w)
  | [], _, _, _, _, n, _, S, vs₀, vs₀', w, _, he, hpushed, hvs₀, h => by
    obtain ⟨hadjust, rfl⟩ := he
    rw [evalExprs]
    refine (h.place.adjusts h.shows hadjust hpushed rfl).followed fun t hlater hshows hat ↦ ?_
    refine .pure hshows ⟨_, ?_, hat, hadjust.eq_length hpushed⟩
    rw [List.append_nil]
    exact forall₂_adjusted .nil (hvs₀.imp fun _ _ hv ↦ hlater.matches_mono hv) _
  | e :: rest, want, pushed, pc, pc', n, multi, S, vs₀, vs₀', w, _, he, hpushed, hvs₀, h => by
    rw [exprsAt.eq_def] at he
    dsimp only at he
    rw [evalExprs]
    split at he
    · next hlast =>
      have hmulti : e.isMulti = true := by simp at hlast; exact hlast.2
      rw [if_pos hlast]
      cases want with
      | all =>
        obtain ⟨he, rfl, rfl⟩ := he
        refine (e.meets hcalls he h).mono fun vs w₁ t₁ hlater₁ hleft ↦ ?_
        obtain ⟨⟨vs', hvs, hat₁⟩, hyields⟩ := hleft
        rw [Expr.Yields, if_pos hmulti] at hyields
        refine ⟨vs₀' ++ vs', ?_, by rwa [← appendList_append], ?_⟩
        · exact List.rel_append (hvs₀.imp fun _ _ hv ↦ hlater₁.matches_mono hv) hvs
        · rw [if_pos rfl, hyields, List.length_append, hpushed, hvs.length_eq]
      | exactly m =>
        obtain ⟨q, he, hadjust, rfl⟩ := he
        refine (e.meets hcalls he h).extend fun vs w₁ t₁ hlater₁ hshows₁ hleft ↦ ?_
        obtain ⟨⟨vs', hvs, hat₁⟩, hyields⟩ := hleft
        rw [Expr.Yields, if_pos hmulti] at hyields
        have hlength : (vs₀' ++ vs').length = pushed + (m - pushed) := by
          rw [List.length_append, hpushed, ← hvs.length_eq, hyields]
        have hall : List.Forall₂ (w₁.Same natives t₁) (vs₀ ++ vs) (vs₀' ++ vs') :=
          List.rel_append (hvs₀.imp fun _ _ hv ↦ hlater₁.matches_mono hv) hvs
        refine (hat₁.adjusts hshows₁ hadjust hlength (appendList_append ..)).followed
          fun t₂ hlater₂ hshows₂ hat₂ ↦ ?_
        refine .pure hshows₂ ⟨_, ?_, hat₂, hadjust.eq_length hlength⟩
        exact forall₂_adjusted .nil (hall.imp fun _ _ hv ↦ hlater₂.matches_mono hv) _
    · next hlast =>
      obtain ⟨q, he, hrest⟩ := he
      rw [if_neg hlast]
      refine (e.meets hcalls he h).toOne.bind fun v w₁ t₁ hlater₁ hshows₁ hleft ↦ ?_
      obtain ⟨v', hv, hat₁⟩ := hleft
      rw [Want.less_behind]
      have h₁ := h.onward hlater₁ hshows₁ hat₁
      have hvs : List.Forall₂ (w₁.Same natives t₁) (vs₀ ++ [v]) (vs₀' ++ [v']) :=
        List.rel_append (hvs₀.imp fun _ _ hv ↦ hlater₁.matches_mono hv) (.cons hv .nil)
      rw [show (S ++ vs₀').push v' = S ++ (vs₀' ++ [v']) by apply Array.ext'; simp] at h₁
      refine (meets_exprs hcalls rest hrest (by simp [hpushed]) hvs h₁).bind
        fun vs w₂ t₂ _ hshows₂ hleft ↦ ?_
      obtain ⟨vs', hvs, hat₂, hcount⟩ := hleft
      exact .pure hshows₂ ⟨vs', by simpa using hvs, hat₂, hcount⟩

theorem meets_fields (hcalls : c.CallsMeet natives code) : ∀ (fields : List Field) {next pc pc' : Nat} {S : Array Value} {w : World}
    {s : State} {t t' : Nat}, fieldsAt U locals next fields pc pc' →
    p.Runs natives code U c locals env cells pc (S.push (.table t')) w s →
    w.Same natives s (.table t) (.table t') → next ≤ pc →
    Meets natives code c.rounds w s (fun _ _ u ↦ p.At U pc' cells (S.push (.table t')) u)
      (evalFields c env (.table t) next fields w)
  | [], _, _, _, _, _, _, _, _, he, h, _, _ => by
    obtain rfl := he
    exact .pure h.shows h.place
  | .item value :: rest, next, pc, pc', S, w, s, t, t', he, h, ht, hnext => by
    rw [fieldsAt] at he
    rw [evalFields]
    split at he
    · next hlast =>
      have hmulti : value.isMulti = true := by simp at hlast; exact hlast.2
      obtain ⟨q, hvalue, hset⟩ := he
      rw [if_pos hlast]
      refine (value.meets hcalls hvalue h).bind fun vs w₁ t₁ hlater₁ hshows₁ hleft ↦ ?_
      obtain ⟨⟨vs', hvs, hat₁⟩, hyields⟩ := hleft
      rw [Expr.Yields, if_pos hmulti] at hyields
      have hle := (value.leads h.fits.few (binds_cellsOf locals) hvalue (S := [])).le
      have hsmall : next < Instruction.wideLimit := (hnext.trans hle).trans_lt (h.fits.lt_of_has hset)
      rw [Nat.mod_eq_of_lt hsmall] at hset
      exact (h.onward hlater₁ hshows₁ hat₁).fills hset rfl (hyields.trans hvs.length_eq)
        (hlater₁.matches_mono ht) hvs
    · next hlast =>
      obtain ⟨q, r, u, hindex, hvalue, hinit, hrest⟩ := he
      rw [if_neg hlast]
      have hle := (value.leads h.fits.few (binds_cellsOf locals) hvalue (S := [])).le
      obtain ⟨j, hj, hload⟩ := hindex
      have hloads : Meets natives code c.rounds w s
          (fun _ w' u ↦ w' = w ∧ p.At U q cells ((S.push (.table t')).push (.int (Int64.ofNat next))) u)
          (.ok () w : EStateM.Result _ _ Unit) :=
        h.place.goesOn h.shows hload (S.push (.table t')) _ fun i hi ↦ perform_loadConst (hi ▸ hj)
      refine hloads.followed fun t₁ hlater₁ hshows₁ hat₁ ↦ ?_
      have h₁ := h.onward hlater₁ hshows₁ hat₁
      refine (value.meets hcalls hvalue h₁).toOne.bind fun v w₂ t₂ hlater₂ hshows₂ hleft ↦ ?_
      obtain ⟨v', hv, hat₂⟩ := hleft
      have h₂ := h₁.onward hlater₂ hshows₂ hat₂
      have ht₂ := (hlater₁.trans hlater₂).matches_mono ht
      refine (h₂.initializes hinit rfl ht₂ (.int _) hv).bind fun _ w₃ t₃ hlater₃ hshows₃ hat₃ ↦ ?_
      refine meets_fields hcalls rest hrest (h₂.onward hlater₃ hshows₃ hat₃) (hlater₃.matches_mono ht₂) ?_
      obtain ⟨rfl, -⟩ := hload
      obtain ⟨rfl, -⟩ := hinit
      omega
  | .entry key value :: rest, next, pc, pc', S, w, s, t, t', he, h, ht, hnext => by
    obtain ⟨q, r, u, hkey, hvalue, hinit, hrest⟩ := he
    rw [evalFields]
    refine (key.meets hcalls hkey h).toOne.bind fun k w₁ t₁ hlater₁ hshows₁ hleft ↦ ?_
    obtain ⟨k', hk, hat₁⟩ := hleft
    have h₁ := h.onward hlater₁ hshows₁ hat₁
    refine (value.meets hcalls hvalue h₁).toOne.bind fun v w₂ t₂ hlater₂ hshows₂ hleft ↦ ?_
    obtain ⟨v', hv, hat₂⟩ := hleft
    have h₂ := h₁.onward hlater₂ hshows₂ hat₂
    have ht₂ := (hlater₁.trans hlater₂).matches_mono ht
    refine (h₂.initializes hinit rfl ht₂ (hlater₂.matches_mono hk) hv).bind
      fun _ w₃ t₃ hlater₃ hshows₃ hat₃ ↦ ?_
    refine meets_fields hcalls rest hrest (h₂.onward hlater₃ hshows₃ hat₃) (hlater₃.matches_mono ht₂) ?_
    have hle := (key.leads h.fits.few (binds_cellsOf locals) hkey (S := [])).le
    have hle' := (value.leads h.fits.few (binds_cellsOf locals) hvalue (S := [])).le
    obtain ⟨rfl, -⟩ := hinit
    omega

end

end

end MiniLua
