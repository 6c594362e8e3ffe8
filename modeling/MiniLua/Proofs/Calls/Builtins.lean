import MiniLua.Proofs.Calls.Reach

/-! A running builtin changes no activation, and of the stack only its window. -/

namespace MiniLua

open Effects Machine

/-- From `s` to `t` the innermost builtin, if it is what runs, touched nothing but its window. -/
def State.WithinWindow (s t : State) : Prop :=
  ∀ call rest, s.activations = .native call :: rest →
    t.activations = s.activations ∧ SameBelow (min call.base s.stack.size) s.stack t.stack

instance : Std.Refl State.WithinWindow := ⟨fun _ _ _ _ ↦ ⟨rfl, .refl (Nat.min_le_right _ _)⟩⟩

instance : IsTrans State State.WithinWindow where
  trans s t u h h' call rest hs := by
    obtain ⟨hcalls, hbelow⟩ := h call rest hs
    obtain ⟨hcalls', hbelow'⟩ := h' call rest (hcalls.trans hs)
    have hsize := hbelow.right
    refine ⟨hcalls'.trans hcalls, hbelow.trans (hbelow'.mono ?_)⟩
    omega

abbrev Contained {α : Type} (m : Machine α) : Prop := Keeps State.WithinWindow m

/-- A builtin that keeps to its window whatever it is told. -/
structure Native.Contained (n : Native) : Prop where
  start : MiniLua.Contained n.start
  resume : ∀ memo result, MiniLua.Contained (n.resume memo result)

theorem Native.Contained.plain {name : String} {body : Machine Unit}
    (h : MiniLua.Contained body) : (Native.plain name body).Contained where
  start := h.bind fun _ ↦ .pure _
  resume _ _ := .pure _

theorem Contained.quiet {α : Type} {m : Machine α} (h : Quiet m) : Contained m := by
  refine h.mono fun s t hst call rest _ ↦ ⟨hst.activations, ?_⟩
  rw [hst.stack]
  exact .refl (Nat.min_le_right _ _)

theorem Contained.quiet_bind {α β : Type} {m : Machine α} {f : α → Machine β} (h : Quiet m)
    (hf : ∀ a, Contained (f a)) : Contained (m >>= f) := (Contained.quiet h).bind hf

namespace Library

theorem contained_setResults (values : List Value) : Contained (setResults values) := by
  refine .modify fun s call rest hs ↦ ?_
  have hnative : s.native? = some call := by simp [State.native?, hs]
  rw [hnative]
  refine ⟨rfl, ?_⟩
  exact (SameBelow.shrink (Nat.min_le_right _ _) (Nat.min_le_left _ _)).trans
    (.appendList (Nat.le_of_eq (Array.size_shrink ..).symm) _)

theorem contained_assert : assert.Contained := by
  refine .plain (.quiet ((quiet_argBool 0).bind fun passed ↦ ?_))
  split
  · exact .pure _
  · exact (quiet_arg 1).bind fun message ↦ .ite_bind (quiet_bytesValue _) (.pure _) fun value ↦
      Keeps.get.bind fun s ↦ .throw _

theorem contained_convert (base : Nat) : MiniLua.Contained (do
    let v ← arg 0
    let heap := (← get).heap
    setResults [match v with
      | .int _ | .float _ => v
      | .string s => parsedNumber base ((heap.bytes? s).getD [])
      | _ => .nil]) :=
  .quiet_bind (quiet_arg 0) fun _ ↦ .quiet_bind .get fun _ ↦ contained_setResults _

theorem contained_tonumber : tonumber.Contained := by
  refine .plain (.quiet_bind (quiet_arg 1) fun v ↦
    Keeps.ite_bind (Contained.quiet (.pure _)) (Contained.quiet (quiet_argInt 1)) fun base ↦ ?_)
  dsimp only
  split
  · exact Contained.quiet_bind (quiet_badArgument _ _) fun _ ↦
      .quiet_bind (.throw _) fun _ ↦ contained_convert _
  · exact contained_convert _

theorem contained_rawget : rawget.Contained :=
  .plain (.quiet_bind .get fun _ ↦ .quiet_bind (quiet_arg 0) fun _ ↦
    .quiet_bind (quiet_arg 1) fun _ ↦ contained_setResults _)

theorem contained_tostring : tostring.Contained :=
  .plain (.quiet_bind .get fun _ ↦ .quiet_bind (quiet_arg 0) fun _ ↦
    .quiet_bind (quiet_bytesValue _) fun _ ↦ contained_setResults _)

theorem quiet_listBound (i : Nat) (default : Int) : Quiet (listBound i default) := by
  refine (quiet_arg i).bind fun v ↦ ?_
  split
  · exact .pure _
  · exact (quiet_argInt i).bind fun _ ↦ .pure _

theorem contained_unpack : unpack.Contained := by
  refine .plain (.quiet_bind (quiet_arg 0) fun list ↦ .quiet_bind .get fun s ↦ ?_)
  dsimp only
  split
  · refine .quiet_bind (quiet_listBound _ _) fun first ↦
      .quiet_bind (quiet_listBound _ _) fun last ↦ ?_
    split
    · exact contained_setResults _
    · split
      · exact .quiet (.throw _)
      · exact contained_setResults _
  · exact .quiet (.throw _)

theorem contained_next : next.Contained := .plain (.quiet (.throw _))

theorem contained_print : print.Contained := by
  refine .plain (.quiet_bind .get fun s ↦ .quiet_bind quiet_args fun values ↦
    .quiet_bind .get fun s ↦ ?_)
  split
  · exact .quiet_bind (.modify fun _ ↦ ⟨rfl, rfl⟩) fun _ ↦ contained_setResults _
  · exact .quiet (.throw _)

theorem contained_collectgarbage : collectgarbage.Contained := .plain (contained_setResults _)

theorem quiet_environmentTarget? : Quiet environmentTarget? := by
  refine (quiet_arg 0).bind fun target ↦ ?_
  have hframe (depth : Nat) : Quiet (do return (← callFrame? depth).map Frame.closure :
      Machine (Option Nat)) := (quiet_callFrame? _).bind fun _ ↦ .pure _
  split
  · exact .pure _
  all_goals try
    refine (quiet_argInt 0).bind fun depth ↦ ?_
    dsimp only
    split
    · refine (Keeps.throw _).bind fun _ ↦ ?_
      split
      · exact (quiet_badArgument _ _).bind fun _ ↦ (Keeps.throw _).bind fun _ ↦ hframe _
      · exact hframe _
    · split
      · exact (quiet_badArgument _ _).bind fun _ ↦ (Keeps.throw _).bind fun _ ↦ hframe _
      · exact hframe _
  · exact (quiet_badArgument _ _).bind fun _ ↦ .throw _

theorem contained_setfenv : setfenv.Contained := by
  refine .plain (.quiet_bind quiet_environmentTarget? fun target ↦
    .quiet_bind (quiet_arg 1) fun env ↦ ?_)
  split
  · exact .quiet_bind (quiet_changeHeap _) fun _ ↦ contained_setResults _
  · exact contained_setResults _

theorem contained_select : select.Contained := by
  refine .plain (.quiet_bind quiet_argCount fun count ↦ .quiet_bind (quiet_arg 0) fun selector ↦
    .quiet_bind .get fun s ↦ ?_)
  split
  · exact contained_setResults _
  · split
    · exact contained_setResults _
    · exact .quiet_bind quiet_expectedResults fun _ ↦
        .quiet_bind (.mapM (fun _ ↦ quiet_arg _) _) contained_setResults

theorem quiet_textArg? (i : Nat) : Quiet (textArg? i) := by
  refine (quiet_arg i).bind fun v ↦ ?_
  split
  · exact .pure _
  · exact (quiet_argBytes i).bind fun _ ↦ .pure _

theorem contained_report (result : Except LoadError Value) : MiniLua.Contained (report result) := by
  cases result
  · exact .quiet_bind (quiet_bytesValue _) fun _ ↦ contained_setResults _
  · exact contained_setResults _

open Loading

theorem contained_loadfile : loadfile.Contained :=
  .plain (.quiet_bind (quiet_textArg? 0) fun _ ↦
    .quiet_bind (quiet_attempt (quiet_loadFile _)) contained_report)

theorem contained_dofile : dofile.Contained where
  start := by
    refine .quiet ((quiet_textArg? 0).bind fun name ↦
      (quiet_attempt (quiet_loadFile name)).bind fun loaded ↦ ?_)
    split
    · exact .pure _
    · exact (quiet_bytesValue _).bind fun _ ↦ (quiet_raise _).bind fun _ ↦ .throw _
    · exact (quiet_bytesValue _).bind fun _ ↦ (quiet_raise _).bind fun _ ↦ .throw _
  resume _ result :=
    .quiet_bind (quiet_lift result) fun _ ↦ (contained_setResults _).bind fun _ ↦ .pure _

theorem contained_loadstring : loadstring.Contained :=
  .plain (.quiet_bind (quiet_argBytes 0) fun _ ↦ .quiet_bind (quiet_textArg? 1) fun _ ↦
    .quiet_bind (quiet_attempt (quiet_loadBytes _ _)) contained_report)

theorem quiet_askReader (reader : Value) (chunkName : String) (text : Bytes) :
    Quiet (askReader reader chunkName text) := Keeps.get.bind fun _ ↦ .pure _

theorem contained_load : load.Contained where
  start := by
    refine .quiet ((quiet_arg 0).bind fun reader ↦ ?_)
    have hask : Quiet (do askReader reader ((← textArg? 1).getD readerChunk) []) :=
      (quiet_textArg? 1).bind fun _ ↦ quiet_askReader _ _ _
    split
    · exact hask
    · exact Keeps.get.bind fun _ ↦ (Keeps.throw _).bind fun _ ↦ hask
  resume memo result := by
    have hdone (loaded : Except LoadError Value) :
        MiniLua.Contained (do report loaded; return Outcome.finished) :=
      (contained_report loaded).bind fun _ ↦ .pure _
    unfold load
    dsimp only
    split
    · split
      · exact .quiet_bind (.modify fun _ ↦ ⟨rfl, rfl⟩) fun _ ↦ hdone _
      · refine .quiet_bind .get fun s ↦ ?_
        split
        · exact .quiet (quiet_askReader _ _ _)
        · exact .quiet_bind (quiet_attempt (quiet_loadBytes _ _)) hdone
    · exact .pure _

theorem contained_foldArgs (pick : Heap → Value → Value → Except RuntimeError Value) :
    MiniLua.Contained (foldArgs pick) := by
  refine .quiet_bind quiet_args fun values ↦ ?_
  split
  · exact .quiet ((quiet_badArgument _ _).bind fun _ ↦ .throw _)
  · exact .quiet_bind .get fun _ ↦ .quiet_bind (quiet_lift _) fun _ ↦ contained_setResults _

theorem quiet_numberArg (i : Nat) : Quiet (numberArg i) := by
  refine (quiet_arg i).bind fun v ↦ ?_
  split
  · exact .pure _
  · exact .pure _
  · exact (quiet_argFloat i).bind fun _ ↦ .pure _

theorem contained_abs : abs.Contained :=
  .plain (.quiet_bind (quiet_numberArg 0) fun _ ↦ .quiet_bind .get fun _ ↦
    .quiet_bind (quiet_lift _) fun _ ↦ contained_setResults _)

theorem contained_maximum : maximum.Contained := .plain (contained_foldArgs _)

theorem contained_minimum : minimum.Contained := .plain (contained_foldArgs _)

theorem contained_modf : modf.Contained :=
  .plain (.quiet_bind (quiet_argFloat 0) fun _ ↦ contained_setResults _)

theorem contained_sin : sin.Contained :=
  .plain (.quiet_bind (quiet_argFloat 0) fun _ ↦ contained_setResults _)

theorem contained_sub : sub.Contained :=
  .plain (.quiet_bind (quiet_argBytes 0) fun _ ↦ .quiet_bind (quiet_argInt 1) fun _ ↦
    .quiet_bind (quiet_arg 2) fun _ ↦
      Keeps.ite_bind (Contained.quiet (.pure _)) (Contained.quiet (quiet_argInt 2)) fun _ ↦
        Contained.quiet_bind (quiet_bytesValue _) fun _ ↦ contained_setResults _)

theorem contained_rep : rep.Contained := by
  refine .plain (.quiet_bind (quiet_argBytes 0) fun s ↦ .quiet_bind (quiet_argInt 1) fun n ↦ ?_)
  dsimp only
  split
  · exact contained_setResults _
  · split
    · exact .quiet_bind (quiet_bytesValue _) fun _ ↦ contained_setResults _
    · exact .quiet (.throw _)

end Library

theorem Builtin.contained (b : Builtin) : b.native.Contained := by
  cases b
  · exact Library.contained_assert
  · exact Library.contained_loadfile
  · exact Library.contained_tonumber
  · exact Library.contained_rawget
  · exact Library.contained_setfenv
  · exact Library.contained_select
  · exact Library.contained_collectgarbage
  · exact Library.contained_dofile
  · exact Library.contained_loadstring
  · exact Library.contained_load
  · exact Library.contained_tostring
  · exact Library.contained_unpack
  · exact Library.contained_next
  · exact Library.contained_print
  · exact Library.contained_abs
  · exact Library.contained_maximum
  · exact Library.contained_minimum
  · exact Library.contained_modf
  · exact Library.contained_sin
  · exact Library.contained_rep
  · exact Library.contained_sub

end MiniLua
