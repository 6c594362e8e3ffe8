import MiniLua.Proofs.Calls.Fixed
import MiniLua.Proofs.Stack.Runs

/-!
Text that a reader function supplies piece by piece. How it is cut does not matter: what is loaded is
what the pieces make together, whatever the reader does in between.
-/

namespace MiniLua

open Effects Machine

/-- The first of these results is a piece of text. -/
def Heap.Supplies (h : Heap) (results : List Value) (piece : Bytes) : Prop :=
  piece ≠ [] ∧ ∃ v, results.head? = some v ∧ h.stringOf? v = some piece

/-- There is no result, or the first one is no string or the empty one. -/
def Heap.EndsText (h : Heap) (results : List Value) : Prop :=
  ∀ v, results.head? = some v → ∀ bytes, h.stringOf? v = some bytes → bytes = []

namespace Loading

theorem piece?_of_supplies {h : Heap} {results : List Value} {piece : Bytes} (hs : h.Supplies results piece) :
    piece? h results = some piece := by
  obtain ⟨hpiece, v, hv, hbytes⟩ := hs
  cases piece with
  | nil => exact absurd rfl hpiece
  | cons b bytes => rw [piece?, hv, Option.bind_some, hbytes]

theorem piece?_of_endsText {h : Heap} {results : List Value} (hs : h.EndsText results) :
    piece? h results = none := by
  unfold piece?
  split
  · next b bytes hfound =>
    obtain ⟨v, hv, hbytes⟩ := Option.bind_eq_some_iff.mp hfound
    exact absurd (hs v hv _ hbytes) (List.cons_ne_nil b bytes)
  · rfl

/-! ### Outcomes of loading -/

/-- The same error, or closures over two tables of globals of prototypes that agree. -/
inductive LoadedAlike (globals globals' : Nat) (h h' : Heap) :
    Except LoadError Value → Except LoadError Value → Prop
  | error (e : LoadError) : LoadedAlike globals globals' h h' (.error e) (.error e)
  | closure {c c' p p' : Nat} (made : h.closures[c]? = some ⟨p, globals, #[]⟩)
      (made' : h'.closures[c']? = some ⟨p', globals', #[]⟩) (code : h.SameCode 0 h' p p') :
      LoadedAlike globals globals' h h' (.ok (.closure c)) (.ok (.closure c'))

/-- Bytes in memory are decoded, and what they are becomes a closure over the globals. -/
theorem attempt_loadBytes (bytes : Bytes) (chunkName : String) (s : State) : ∃ host,
    (∀ main t, decode bytes chunkName { s with host } = .ok main t →
      attempt (loadBytes bytes chunkName) s = .ok (.ok (.closure t.heap.closures.size))
        { release ⟨.memory, bytes, none, none⟩ t with
          heap := (t.heap.allocClosure ⟨main, t.globals, #[]⟩).2 }) ∧
    ∀ e t, decode bytes chunkName { s with host } = .error e t →
      attempt (loadBytes bytes chunkName) s = .ok (.error e) (release ⟨.memory, bytes, none, none⟩ t) := by
  have hnote : note (.opened .memory) s = .ok () { s with host := s.host.note (.opened .memory) } := rfl
  have hdrain (s : State) : drain ⟨.memory, bytes, none, none⟩ chunkName s =
      .ok bytes { s with host := (s.host.read ⟨.memory, bytes, none, none⟩).2.2 } := drain_apply _ chunkName s
  refine ⟨((s.host.note (.opened .memory)).read ⟨.memory, bytes, none, none⟩).2.2,
    fun main t h ↦ ?_, fun e t h ↦ ?_⟩
  · rw [attempt, loadBytes, bind_of_ok hnote, loadStream, bind_of_ok (hdrain _), h]
    rfl
  · rw [attempt, loadBytes, bind_of_ok hnote, loadStream, bind_of_ok (hdrain _), h]

/-- Loaded into two machines that both compile text or both do not, the same bytes come to the same. -/
theorem loadedAlike_loadBytes {s s' : State} (hs : s.heap.strings.Exact) (hs' : s'.heap.strings.Exact)
    (hcompiles : s'.compiles = s.compiles) (bytes : Bytes) (chunkName : String) : ∃ r r' t t',
    attempt (loadBytes bytes chunkName) s = .ok r t ∧ attempt (loadBytes bytes chunkName) s' = .ok r' t' ∧
      LoadedAlike s.globals s'.globals t.heap t'.heap r r' := by
  obtain ⟨host, hloads, hfails⟩ := attempt_loadBytes bytes chunkName s
  obtain ⟨host', hloads', hfails'⟩ := attempt_loadBytes bytes chunkName s'
  have huniform := @decode_uniform 0 { s with host } { s' with host := host' } hs hs' hcompiles bytes chunkName
  cases hdecode : decode bytes chunkName { s with host } with
  | ok main t =>
    cases hdecode' : decode bytes chunkName { s' with host := host' } with
    | error e t' =>
      rw [hdecode, hdecode'] at huniform
      cases huniform
    | ok main' t' =>
      rw [hdecode, hdecode'] at huniform
      have hload := hloads main t hdecode
      have hload' := hloads' main' t' hdecode'
      cases huniform with
      | ok _ g g' hcode =>
        obtain ⟨heap, rfl, -⟩ := g
        obtain ⟨heap', rfl, -⟩ := g'
        refine ⟨_, _, _, _, hload, hload', .closure ?_ ?_
          (hcode.mono (.allocClosure heap _) (.allocClosure heap' _))⟩
        · exact Array.getElem?_push_size
        · exact Array.getElem?_push_size
  | error e t =>
    cases hdecode' : decode bytes chunkName { s' with host := host' } with
    | ok main' t' =>
      rw [hdecode, hdecode'] at huniform
      cases huniform
    | error e' t' =>
      rw [hdecode, hdecode'] at huniform
      have hfail := hfails e t hdecode
      have hfail' := hfails' e' t' hdecode'
      cases huniform with
      | error _ _ _ he => exact ⟨_, _, _, _, hfail, hfail', he ▸ .error e⟩

/-- What was loaded is what these bytes are in the machine `w`: the error is the same, or the code is. -/
def LoadedFrom (bytes : Bytes) (chunkName : String) (w : State) (globals : Nat) (r : Except LoadError Value)
    (t : State) : Prop :=
  ∃ r' t', attempt (loadBytes bytes chunkName) w = .ok r' t' ∧ LoadedAlike globals w.globals t.heap t'.heap r r'

theorem loadedFrom_of_fixed {s t w : State} (hs : s.heap.strings.Exact) (hw : w.heap.strings.Exact)
    (hcompiles : w.compiles = s.compiles) (hfixed : s.Fixed t) (bytes : Bytes) (chunkName : String) :
    ∃ r u, attempt (loadBytes bytes chunkName) t = .ok r u ∧ LoadedFrom bytes chunkName w s.globals r u := by
  obtain ⟨r, r', u, u', hload, hload', halike⟩ :=
    loadedAlike_loadBytes (hfixed.exact hs) hw (hcompiles.trans hfixed.compiles.symm) bytes chunkName
  rw [hfixed.globals] at halike
  exact ⟨r, u, hload, r', u', hload', halike⟩

/-! ### Readers that the host calls -/

/-- From `s` to `t` the host called the reader once for each of these pieces. -/
inductive Reads (natives : Array Native) (fuel : Nat) (reader : Value) : State → List Bytes → State → Prop
  | nil (s : State) : Reads natives fuel reader s [] s
  | cons {s t u : State} {results : List Value} {piece : Bytes} {pieces : List Bytes}
      (call : callValue natives fuel reader [] s = .halted (.ok results) t)
      (supplies : t.heap.Supplies results piece) (rest : Reads natives fuel reader t pieces u) :
      Reads natives fuel reader s (piece :: pieces) u

section

variable {natives : Array Native} {fuel : Nat} {reader : Value} {s t : State} {pieces : List Bytes}

theorem Reads.fixed (hnatives : ∀ b ∈ natives, b.Fixed) (h : Reads natives fuel reader s pieces t) :
    s.Fixed t := by
  induction h with
  | nil s => exact Std.Refl.refl s
  | @cons s t u results piece pieces call _ _ ih =>
    have hcall := fixed_run hnatives fuel (.enter reader []) s
    rw [← callValue, call] at hcall
    exact IsTrans.trans _ _ _ hcall ih

/-- Before it loads anything `loadFrom` calls the reader for each piece, and once more. -/
theorem Reads.loadFrom_eq (h : Reads natives fuel reader s pieces t) (chunkName : String) (rounds : Nat)
    (text : Bytes) : loadFrom natives fuel reader chunkName (pieces.length + rounds) text s =
      loadFrom natives fuel reader chunkName rounds (text ++ pieces.flatten) t := by
  induction h generalizing text with
  | nil s => rw [List.length_nil, Nat.zero_add, List.flatten_nil, List.append_nil]
  | cons call supplies _ ih =>
    rw [List.length_cons, Nat.add_right_comm, loadFrom, call]
    dsimp only
    rw [piece?_of_supplies supplies]
    dsimp only
    rw [ih, List.flatten_cons, List.append_assoc]

theorem Reads.loadFrom_eq_none (h : Reads natives fuel reader s pieces t) (chunkName : String) {rounds : Nat}
    (hrounds : rounds ≤ pieces.length) (text : Bytes) :
    loadFrom natives fuel reader chunkName rounds text s = none := by
  induction h generalizing rounds text with
  | nil s =>
    obtain rfl := Nat.le_zero.mp hrounds
    rfl
  | cons call supplies _ ih =>
    cases rounds with
    | zero => rfl
    | succ rounds =>
      rw [loadFrom, call]
      dsimp only
      rw [piece?_of_supplies supplies]
      exact ih (Nat.le_of_succ_le_succ hrounds) _

theorem loadFrom_of_endsText {chunkName : String} {results : List Value} {text : Bytes} {rounds : Nat}
    {r : Except LoadError Value} {u : State}
    (call : callValue natives fuel reader [] s = .halted (.ok results) t) (ends : t.heap.EndsText results)
    (hload : attempt (loadBytes text chunkName) t = .ok r u) :
    loadFrom natives fuel reader chunkName (rounds + 1) text s = some (r, u) := by
  rw [loadFrom, call]
  dsimp only
  rw [piece?_of_endsText ends]
  unfold attempt at hload
  cases hbytes : loadBytes text chunkName t with
  | ok v w =>
    rw [hbytes] at hload
    cases hload
    rfl
  | error e w =>
    rw [hbytes] at hload
    cases hload
    rfl

theorem loadFrom_of_error {chunkName : String} {text : Bytes} {rounds : Nat} {e : RuntimeError}
    (call : callValue natives fuel reader [] s = .halted (.error e) t) :
    loadFrom natives fuel reader chunkName (rounds + 1) text s =
      some (.error (.reader e.message), { t with location := s.location }) := by
  rw [loadFrom, call]

end

end Loading

/-! ### Readers that `load` calls -/

namespace Library

open Loading Transition

/-- The builtin `load` has made a call of the reader, with this text so far. -/
def Awaits (natives : Array Native) (reader : Value) (chunkName : String) (text : Bytes) (s : State) : Prop :=
  ∃ call rest location, s.activations = .native call :: rest ∧ natives[call.native]? = some load ∧
    call.memo = .source text reader chunkName location

/-- The next call of the reader, with this text so far. -/
def asking (reader : Value) (chunkName : String) (text : Bytes) (s : State) : State :=
  remember (.source text reader chunkName s.location) s

/-- From `s` to `t` the builtin `load` called the reader once for each of these pieces, and has then called it
once more. -/
inductive Pulls (natives : Array Native) (reader : Value) (chunkName : String) :
    Bytes → State → List Bytes → State → Prop
  | nil (text : Bytes) (s : State) : Pulls natives reader chunkName text s [] s
  | cons {text piece : Bytes} {s t u : State} {n : Nat} {results : List Value} {pieces : List Bytes}
      (call : CallEnds natives reader [] s n (.ok results) t) (supplies : t.heap.Supplies results piece)
      (rest : Pulls natives reader chunkName (text ++ piece) (asking reader chunkName (text ++ piece) t)
        pieces u) :
      Pulls natives reader chunkName text s (piece :: pieces) u

section

variable {natives : Array Native} {reader : Value} {chunkName : String} {text : Bytes} {s t : State} {n : Nat}

/-- The only call that `load` starts with is one of a reader, with no text so far. -/
theorem awaits_of_start {call : NativeCall} {rest : List Activation} {callee : Value} {args : List Value}
    {memo : Memo} (hcalls : s.activations = .native call :: rest) (hslot : natives[call.native]? = some load)
    (h : load.start s = .ok (.invoke callee args memo) t) :
    args = [] ∧ ∃ chunkName, Awaits natives callee chunkName [] (remember memo t) := by
  have hask {reader : Value} {u : State} (hu : u.activations = s.activations)
      (h : (do askReader reader ((← textArg? 1).getD readerChunk) [] : Machine Outcome) u =
        .ok (.invoke callee args memo) t) :
      args = [] ∧ ∃ chunkName, Awaits natives callee chunkName [] (remember memo t) := by
    obtain ⟨name, v, hname, h⟩ := bind_eq_ok.mp h
    have hsame := quiet_textArg? 1 u
    rw [hname] at hsame
    cases h
    have hcalls' : t.activations = .native call :: rest := hsame.activations.trans (hu.trans hcalls)
    rw [remember, hcalls']
    exact ⟨rfl, _, _, rest, _, rfl, hslot, rfl⟩
  obtain ⟨reader, u, harg, h⟩ := bind_eq_ok.mp h
  have hsame := quiet_arg 0 s
  rw [harg] at hsame
  dsimp only at h
  split at h
  · exact hask hsame.activations h
  · cases h

theorem Awaits.handOver (h : Awaits natives reader chunkName text s)
    (result : Except RuntimeError (List Value)) : ∃ location, step natives (.deliver result) s =
      afterNative (load.resume (.source text reader chunkName location) result s) := by
  obtain ⟨call, rest, location, hcalls, hslot, hmemo⟩ := h
  refine ⟨location, ?_⟩
  rw [step, Transition.handOver, hcalls]
  dsimp only
  rw [hslot, ← hmemo]

theorem Awaits.of_callEnds (hnatives : ∀ b ∈ natives, b.Contained) (h : Awaits natives reader chunkName text s)
    {result : Except RuntimeError (List Value)} (hends : CallEnds natives reader [] s n result t) :
    Awaits natives reader chunkName text t := by
  obtain ⟨call, rest, location, hcalls, hslot, hmemo⟩ := h
  have hhost : ¬ IsGuest s.activations := by
    rw [hcalls]
    exact id
  have hback := hends.back_of_spares hnatives hhost (Nat.zero_le _) fun _ _ _ _ ↦ Nat.zero_le _
  exact ⟨call, rest, location, hback.calls.trans hcalls, hslot, hmemo⟩

theorem Awaits.asking (h : Awaits natives reader chunkName text s) (text' : Bytes) :
    Awaits natives reader chunkName text' (asking reader chunkName text' s) := by
  obtain ⟨call, rest, location, hcalls, hslot, -⟩ := h
  rw [Library.asking, remember, hcalls]
  exact ⟨_, rest, s.location, rfl, hslot, rfl⟩

/-- With another piece `load` goes on asking. -/
theorem Awaits.step_of_supplies (h : Awaits natives reader chunkName text s) {results : List Value}
    {piece : Bytes} (supplies : s.heap.Supplies results piece) :
    step natives (.deliver (.ok results)) s =
      .next (.enter reader []) (Library.asking reader chunkName (text ++ piece) s) := by
  obtain ⟨location, hstep⟩ := h.handOver (.ok results)
  have hpiece := piece?_of_supplies supplies
  rw [hstep, load]
  dsimp only
  rw [bind_apply, get_apply]
  dsimp only
  rw [hpiece]
  rfl

theorem Awaits.step_of_endsText (h : Awaits natives reader chunkName text s) {results : List Value}
    (ends : s.heap.EndsText results) {r : Except LoadError Value}
    (hload : attempt (loadBytes text chunkName) s = .ok r t) :
    step natives (.deliver (.ok results)) s =
      afterNative ((do report r; return .finished : Machine Outcome) t) := by
  obtain ⟨location, hstep⟩ := h.handOver (.ok results)
  have hpiece := piece?_of_endsText ends
  rw [hstep, load]
  dsimp only
  rw [bind_apply, get_apply]
  dsimp only
  rw [hpiece]
  dsimp only
  rw [bind_of_ok hload]

theorem Awaits.step_of_error (h : Awaits natives reader chunkName text s) (e : RuntimeError) :
    ∃ location, step natives (.deliver (.error e)) s =
      afterNative ((do report (.error (.reader e.message)); return .finished : Machine Outcome)
        { s with location }) := by
  obtain ⟨location, hstep⟩ := h.handOver (.error e)
  exact ⟨location, hstep⟩

theorem Pulls.runs (hnatives : ∀ b ∈ natives, b.Contained) {pieces : List Bytes}
    (h : Pulls natives reader chunkName text s pieces t) (hs : Awaits natives reader chunkName text s) :
    Awaits natives reader chunkName (text ++ pieces.flatten) t ∧
      ∃ k, run natives k (.enter reader []) s = .running (.enter reader []) t := by
  induction h with
  | nil text s =>
    rw [List.flatten_nil, List.append_nil]
    exact ⟨hs, 0, rfl⟩
  | @cons text piece s t u n results pieces call supplies _ ih =>
    have ht := hs.of_callEnds hnatives call
    obtain ⟨hu, k, hrun⟩ := ih (ht.asking _)
    rw [List.flatten_cons, ← List.append_assoc]
    have hstep := run_of_next (ht.step_of_supplies supplies) k
    exact ⟨hu, n + (k + 1), (run_of_running call.ran (k + 1)).trans (hstep.trans hrun)⟩

theorem Pulls.fixed (hnatives : ∀ b ∈ natives, b.Contained) (hfixed : ∀ b ∈ natives, b.Fixed)
    {pieces : List Bytes} (h : Pulls natives reader chunkName text s pieces t)
    (hs : Awaits natives reader chunkName text s) : s.Fixed t := by
  obtain ⟨-, k, hrun⟩ := h.runs hnatives hs
  have hsame := fixed_run hfixed k (.enter reader []) s
  rw [hrun] at hsame
  exact hsame

end

end Library

open Loading Library in
/-- A reader is called once for each piece of text it supplies and once more, by the host or by `load`. What
is loaded then is what the pieces make together, here and in any other machine that compiles text if this
one does: there is the same error, or a closure of the same code over the globals. If a call of the reader
fails nothing is loaded, and the error tells why the call failed. -/
theorem loads_pieces_whole {natives : Array Native} (hnatives : ∀ b ∈ natives, b.Fixed) {reader : Value}
    (chunkName : String) {s w : State} (hs : s.heap.strings.Exact) (hw : w.heap.strings.Exact)
    (hcompiles : w.compiles = s.compiles) :
    (∀ {fuel : Nat} {pieces : List Bytes} {t : State}, Reads natives fuel reader s pieces t →
      (∀ rounds ≤ pieces.length, loadFrom natives fuel reader chunkName rounds [] s = none) ∧
      (∀ {results : List Value} {u : State}, callValue natives fuel reader [] t = .halted (.ok results) u →
        u.heap.EndsText results → ∃ r v, attempt (loadBytes pieces.flatten chunkName) u = .ok r v ∧
          LoadedFrom pieces.flatten chunkName w s.globals r v ∧
          ∀ rounds > pieces.length, loadFrom natives fuel reader chunkName rounds [] s = some (r, v)) ∧
      ∀ {e : RuntimeError} {u : State}, callValue natives fuel reader [] t = .halted (.error e) u →
        ∀ rounds > pieces.length, loadFrom natives fuel reader chunkName rounds [] s =
          some (.error (.reader e.message), { u with location := t.location })) ∧
    ((∀ b ∈ natives, b.Contained) → Awaits natives reader chunkName [] s →
      ∀ {pieces : List Bytes} {t : State}, Pulls natives reader chunkName [] s pieces t →
        (∃ k, run natives k (.enter reader []) s = .running (.enter reader []) t) ∧
        (∀ {n : Nat} {results : List Value} {u : State}, CallEnds natives reader [] t n (.ok results) u →
          u.heap.EndsText results → ∃ r v, attempt (loadBytes pieces.flatten chunkName) u = .ok r v ∧
            LoadedFrom pieces.flatten chunkName w s.globals r v ∧
            step natives (.deliver (.ok results)) u =
              Transition.afterNative ((do report r; return .finished : Machine Outcome) v)) ∧
        ∀ {n : Nat} {e : RuntimeError} {u : State}, CallEnds natives reader [] t n (.error e) u →
          ∃ location, step natives (.deliver (.error e)) u = Transition.afterNative
            ((do report (.error (.reader e.message)); return .finished : Machine Outcome)
              { u with location })) := by
  refine ⟨fun {fuel pieces t} hreads ↦ ?_, fun hcontained hawaits {pieces t} hpulls ↦ ?_⟩
  · have hrounds {rounds : Nat} (h : rounds > pieces.length) : ∃ more, rounds = pieces.length + (more + 1) :=
      ⟨rounds - pieces.length - 1, by omega⟩
    refine ⟨fun rounds h ↦ hreads.loadFrom_eq_none chunkName h [], fun {results u} hcall hends ↦ ?_,
      fun {e u} hcall rounds h ↦ ?_⟩
    · have hlast := fixed_run hnatives fuel (.enter reader []) t
      rw [← callValue, hcall] at hlast
      have hfixed : s.Fixed u := IsTrans.trans _ _ _ (hreads.fixed hnatives) hlast
      obtain ⟨r, v, hload, hfrom⟩ := loadedFrom_of_fixed hs hw hcompiles hfixed pieces.flatten chunkName
      refine ⟨r, v, hload, hfrom, fun rounds h ↦ ?_⟩
      obtain ⟨more, rfl⟩ := hrounds h
      rw [hreads.loadFrom_eq, List.nil_append]
      exact loadFrom_of_endsText hcall hends hload
    · obtain ⟨more, rfl⟩ := hrounds h
      rw [hreads.loadFrom_eq]
      exact loadFrom_of_error hcall
  · obtain ⟨hlast, hrun⟩ := hpulls.runs hcontained hawaits
    rw [List.nil_append] at hlast
    refine ⟨hrun, fun {n results u} hcall hends ↦ ?_, fun {n e u} hcall ↦ ?_⟩
    · have hthen := fixed_run hnatives n (.enter reader []) t
      rw [← callValue, hcall.ran] at hthen
      have hfixed : s.Fixed u := IsTrans.trans _ _ _ (hpulls.fixed hcontained hnatives hawaits) hthen
      obtain ⟨r, v, hload, hfrom⟩ := loadedFrom_of_fixed hs hw hcompiles hfixed pieces.flatten chunkName
      exact ⟨r, v, hload, hfrom, (hlast.of_callEnds hcontained hcall).step_of_endsText hends hload⟩
    · exact (hlast.of_callEnds hcontained hcall).step_of_error e

/-- The strings "re" and "turn". -/
def halves : StringPool := ((StringPool.empty.intern [114, 101]).2.intern [116, 117, 114, 110]).2

/-- The closure of the function below, over the first two cells. -/
def shiftClosure : Closure := ⟨0, 0, #[0, 1]⟩

/-- A function with two cells that returns what is in the first and moves there what is in the second. -/
def shiftState (calls : List Activation) (first second : Value) : State :=
  let shift : Prototype := ⟨"shift", 0, false, 0,
    #[⟨Opcode.getUpvalue.byte, 0, 0, 0⟩, ⟨Opcode.getUpvalue.byte, 0, 0, 1⟩,
      ⟨Opcode.setUpvalue.byte, 0, 0, 0⟩, ⟨Opcode.loadNil.byte, 1, 0, 0⟩,
      ⟨Opcode.setUpvalue.byte, 0, 0, 1⟩, ⟨Opcode.ret.byte, 1, 0, 0⟩],
    #[], #[], #[], #[]⟩
  { State.start ⟨9, 9⟩ .empty true with
    heap := ⟨halves, #[.empty, .empty], #[shift], #[shiftClosure], #[first, second]⟩
    stack := #[.native 9, .closure 0]
    activations := calls }

/-- That function is at an instruction. -/
def shiftingState (calls : List Activation) (ip : Nat) (pushed : List Value) (first second : Value) : State :=
  { shiftState calls first second with
    stack := ⟨.native 9 :: .closure 0 :: pushed⟩
    activations := .guest ⟨0, ip, 2, #[], [], none⟩ :: calls }

theorem step_of_perform {natives : Array Native} {s t : State} {frame : Frame} {rest : List Activation}
    {p : Prototype} {i : Instruction} {op : Opcode} (hs : s.activations = .guest frame :: rest)
    (hp : s.proto? frame.closure = some p) (hi : p.code[frame.ip]? = some i) (hop : i.opcode? = some op)
    (h : perform frame p.constants i op (advance s) = .ok .nothing t) :
    step natives .execute s = .next .execute t := by
  rw [step, instruction_of_guest hs hp hi hop, h]

theorem callEnds_shift {natives : Array Native} {calls : List Activation} (hhost : ¬ IsGuest calls)
    {first second : Value} (hcalled : step natives (.enter (.closure 0) []) (shiftState calls first second) =
      .next .execute (shiftingState calls 0 [] first second)) :
    CallEnds natives (.closure 0) [] (shiftState calls first second) 7 (.ok [first])
      (shiftState calls second .nil) := by
  have hnear (op : UInt8) : shiftClosure.upvalues[(⟨op, 0, 0, 0⟩ : Instruction).x]? = some 0 := by
    simp [shiftClosure, Instruction.x]
  have hfar (op : UInt8) : shiftClosure.upvalues[(⟨op, 0, 0, 1⟩ : Instruction).x]? = some 1 := by
    simp [shiftClosure, Instruction.x]
  have henter (n : Nat) : run natives (n + 1) (.enter (.closure 0) []) (shiftState calls first second) =
      run natives n .execute (shiftingState calls 0 [] first second) := run_of_next hcalled n
  have hfirst (n : Nat) : run natives (n + 1) .execute (shiftingState calls 0 [] first second) =
      run natives n .execute (shiftingState calls 1 [first] first second) :=
    run_of_next (step_of_perform rfl rfl rfl rfl
      ((perform_getUpvalue (c := shiftClosure) rfl (hnear _)).trans rfl)) n
  have hsecond (n : Nat) : run natives (n + 1) .execute (shiftingState calls 1 [first] first second) =
      run natives n .execute (shiftingState calls 2 [first, second] first second) :=
    run_of_next (step_of_perform rfl rfl rfl rfl
      ((perform_getUpvalue (c := shiftClosure) rfl (hfar _)).trans rfl)) n
  have hmove (n : Nat) : run natives (n + 1) .execute (shiftingState calls 2 [first, second] first second) =
      run natives n .execute (shiftingState calls 3 [first] second second) :=
    run_of_next (step_of_perform rfl rfl rfl rfl
      ((perform_setUpvalue (c := shiftClosure) (S := #[.native 9, .closure 0, first]) rfl (hnear _) rfl).trans
        rfl)) n
  have hnil (n : Nat) : run natives (n + 1) .execute (shiftingState calls 3 [first] second second) =
      run natives n .execute (shiftingState calls 4 [first, .nil] second second) := run_of_next rfl n
  have hclear (n : Nat) : run natives (n + 1) .execute (shiftingState calls 4 [first, .nil] second second) =
      run natives n .execute (shiftingState calls 5 [first] second .nil) :=
    run_of_next (step_of_perform rfl rfl rfl rfl
      ((perform_setUpvalue (c := shiftClosure) (S := #[.native 9, .closure 0, first]) rfl (hfar _) rfl).trans
        rfl)) n
  have hleave (n : Nat) : run natives (n + 1) .execute (shiftingState calls 5 [first] second .nil) =
      run natives n (.deliver (.ok [first])) (shiftState calls second .nil) := by
    rcases calls with _ | ⟨_ | _, _⟩
    · exact run_of_next rfl n
    · exact absurd trivial hhost
    · exact run_of_next rfl n
  have hinside (ip : Nat) (pushed : List Value) (first second : Value) :
      calls.length < (shiftingState calls ip pushed first second).activations.length := Nat.lt_succ_self _
  refine ⟨by rw [callValue, henter, hfirst, hsecond, hmove, hnil, hclear, hleave, run], Nat.le_refl _,
    fun k mode u hk hk' hu ↦ ?_⟩
  rw [callValue] at hu
  obtain rfl | rfl | rfl | rfl | rfl | rfl : k = 1 ∨ k = 2 ∨ k = 3 ∨ k = 4 ∨ k = 5 ∨ k = 6 := by omega
  · rw [henter] at hu
    cases hu
    exact hinside ..
  · rw [henter, hfirst] at hu
    cases hu
    exact hinside ..
  · rw [henter, hfirst, hsecond] at hu
    cases hu
    exact hinside ..
  · rw [henter, hfirst, hsecond, hmove] at hu
    cases hu
    exact hinside ..
  · rw [henter, hfirst, hsecond, hmove, hnil] at hu
    cases hu
    exact hinside ..
  · rw [henter, hfirst, hsecond, hmove, hnil, hclear] at hu
    cases hu
    exact hinside ..

/-- A call of `load` that has the function for a reader. -/
def loadCall (text : Bytes) : List Activation :=
  [.native ⟨9, "load", 1, 1, none, .source text (.closure 0) "pieces" none⟩]

open Loading Library in
/-- The two strings are what the function returns first, and then nil. -/
theorem loads_pieces_whole_two : ∃ r v r' v',
    halves.Exact ∧
    Reads (Builtin.all.map Builtin.native).toArray 8 (.closure 0) (shiftState [] (.string 0) (.string 1))
      [[114, 101], [116, 117, 114, 110]] (shiftState [] .nil .nil) ∧
    (∀ rounds ≤ 2, loadFrom (Builtin.all.map Builtin.native).toArray 8 (.closure 0) "pieces" rounds []
      (shiftState [] (.string 0) (.string 1)) = none) ∧
    loadFrom (Builtin.all.map Builtin.native).toArray 8 (.closure 0) "pieces" 3 []
      (shiftState [] (.string 0) (.string 1)) = some (r, v) ∧
    LoadedFrom [114, 101, 116, 117, 114, 110] "pieces" (.start {} .empty true) 0 r v ∧
    Awaits (Builtin.all.map Builtin.native).toArray (.closure 0) "pieces" []
      (shiftState (loadCall []) (.string 0) (.string 1)) ∧
    Pulls (Builtin.all.map Builtin.native).toArray (.closure 0) "pieces" []
      (shiftState (loadCall []) (.string 0) (.string 1)) [[114, 101], [116, 117, 114, 110]]
      (shiftState (loadCall [114, 101, 116, 117, 114, 110]) .nil .nil) ∧
    step (Builtin.all.map Builtin.native).toArray (.deliver (.ok [.nil]))
        (shiftState (loadCall [114, 101, 116, 117, 114, 110]) .nil .nil) =
      Transition.afterNative ((do report r'; return .finished : Machine Outcome) v') ∧
    LoadedFrom [114, 101, 116, 117, 114, 110] "pieces" (.start {} .empty true) 0 r' v' := by
  have hall {P : Native → Prop} (h : ∀ b : Builtin, P b.native) :
      ∀ n ∈ (Builtin.all.map Builtin.native).toArray, P n := by
    intro n hn
    obtain ⟨b, -, rfl⟩ := List.mem_map.mp (List.mem_toArray.mp hn)
    exact h b
  have hhalves : halves.strings = #[[114, 101], [116, 117, 114, 110]] := rfl
  have hexact : halves.Exact := (StringPool.exact_empty.intern _).intern _
  have hre (calls : List Activation) (a b : Value) :
      (shiftState calls a b).heap.Supplies [.string 0] [114, 101] :=
    ⟨by decide, _, rfl, congrArg (·[0]?) hhalves⟩
  have hturn (calls : List Activation) (a b : Value) :
      (shiftState calls a b).heap.Supplies [.string 1] [116, 117, 114, 110] :=
    ⟨by decide, _, rfl, congrArg (·[1]?) hhalves⟩
  have hends (calls : List Activation) : (shiftState calls .nil .nil).heap.EndsText [.nil] := by
    intro v hv bytes hbytes
    cases hv
    cases hbytes
  have hcall (a b : Value) : callValue (Builtin.all.map Builtin.native).toArray 8 (.closure 0) []
      (shiftState [] a b) = .halted (.ok [a]) (shiftState [] b .nil) :=
    run_of_running (callEnds_shift id rfl).ran 1
  have hask (text : Bytes) (a b : Value) : CallEnds (Builtin.all.map Builtin.native).toArray (.closure 0) []
      (shiftState (loadCall text) a b) 7 (.ok [a]) (shiftState (loadCall text) b .nil) :=
    callEnds_shift id rfl
  have hreads : Reads (Builtin.all.map Builtin.native).toArray 8 (.closure 0)
      (shiftState [] (.string 0) (.string 1)) [[114, 101], [116, 117, 114, 110]] (shiftState [] .nil .nil) :=
    .cons (hcall _ _) (hre ..) (.cons (hcall _ _) (hturn ..) (.nil _))
  have hpulls : Pulls (Builtin.all.map Builtin.native).toArray (.closure 0) "pieces" []
      (shiftState (loadCall []) (.string 0) (.string 1)) [[114, 101], [116, 117, 114, 110]]
      (shiftState (loadCall [114, 101, 116, 117, 114, 110]) .nil .nil) :=
    .cons (hask _ _ _) (hre ..) (.cons (hask _ _ _) (hturn ..) (.nil _ _))
  have hawaits : Awaits (Builtin.all.map Builtin.native).toArray (.closure 0) "pieces" []
      (shiftState (loadCall []) (.string 0) (.string 1)) := ⟨_, _, _, rfl, rfl, rfl⟩
  obtain ⟨hhost, -⟩ := @loads_pieces_whole _ (hall Builtin.fixed) (.closure 0) "pieces"
    (shiftState [] (.string 0) (.string 1)) (.start {} .empty true) hexact StringPool.exact_empty rfl
  obtain ⟨hfew, hload, -⟩ := hhost hreads
  obtain ⟨r, v, -, hfrom, henough⟩ := hload (hcall _ _) (hends _)
  obtain ⟨-, hguest⟩ := @loads_pieces_whole _ (hall Builtin.fixed) (.closure 0) "pieces"
    (shiftState (loadCall []) (.string 0) (.string 1)) (.start {} .empty true) hexact StringPool.exact_empty rfl
  obtain ⟨-, hreport, -⟩ := hguest (hall Builtin.contained) hawaits hpulls
  obtain ⟨r', v', -, hfrom', hstep⟩ := hreport (hask _ _ _) (hends _)
  exact ⟨r, v, r', v', hexact, hreads, hfew, henough 3 (by decide), hfrom, hawaits, hpulls, hstep, hfrom'⟩

end MiniLua
