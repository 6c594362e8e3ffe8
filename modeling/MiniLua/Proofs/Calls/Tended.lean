import MiniLua.Proofs.Calls.Tame
import MiniLua.Proofs.Stack.Discipline

/-!
What holds of the machine between any two steps, whatever code it runs: activations and stack keep to
their limits, every guest function that runs has its code, every builtin that waits knows what to
make of an error, and no place is noted but that of an error on its way. What a step that fails adds
to this is the place it fails at.
-/

namespace MiniLua

open Effects Machine

/-- The place of the innermost guest function. -/
def State.place? (s : State) : Option Location :=
  s.frames.head?.bind fun f ↦ (s.proto? f.closure).map fun p ↦ ⟨p.name, p.lines.getD (f.ip - 1) 0⟩

theorem State.noteLocation_apply (s : State) :
    s.noteLocation = { s with location := s.location.or s.place? } := by
  have hsame {location : Option Location} (h : s.location = location) : s = { s with location } := by
    rw [← h]
  unfold noteLocation place?
  cases hlocation : s.location with
  | some l => simpa using hsame hlocation
  | none =>
    cases hframes : s.frames with
    | nil => simpa using hsame hlocation
    | cons f rest =>
      cases hp : s.proto? f.closure with
      | none => simpa [hp] using hsame hlocation
      | some p => simp [hp]

/-- The machine at the moment when a step may fail: an instruction is under way, and what returns is
left. -/
def Mode.scene (m : Mode) (s : State) : State :=
  match m with
  | .execute =>
    match instruction s with
    | .ok (.ret _) t => { t with activations := t.activations.tail }
    | r => final r
  | _ => s

/-- The builtin that made a call fails with the error that the call brings it. -/
def Mode.PassesOn (natives : Array Native) (e : RuntimeError) (m : Mode) (s : State) : Prop :=
  m = .deliver (.error e) ∧ ∃ call rest n, s.activations = .native call :: rest ∧
    natives[call.native]? = some n ∧ n.resume call.memo (.error e) s = .error e s

/-- An activation is not too high on the stack, a guest function has its code, and a builtin can deal
with an error. -/
def Activation.Tended (natives : Array Native) (limit : Nat) (h : Heap) : Activation → Prop
  | guest f => f.base ≤ limit ∧ ∃ p, ((h.closures[f.closure]?).bind fun c ↦ h.protos[c.proto]?) = some p
  | native call => call.base - 1 ≤ limit ∧ ∃ n, natives[call.native]? = some n ∧ n.Settles call.memo

/-- The limits hold, but for what a running builtin has in its window, and activations are as they
should be. -/
structure State.Tended (natives : Array Native) (o : Options) (limit : Nat) (s : State) : Prop where
  options : s.options = o
  depth : s.activations.length ≤ o.maxCallDepth
  calls : ∀ a ∈ s.activations, a.Tended natives limit s.heap

section

variable {natives : Array Native} {o : Options} {limit : Nat} {s t : State}

theorem Heap.Conserves.code {h k : Heap} (g : h.Conserves k) {c : Nat} {p : Prototype}
    (hp : ((h.closures[c]?).bind fun c ↦ h.protos[c.proto]?) = some p) :
    ((k.closures[c]?).bind fun c ↦ k.protos[c.proto]?) = some p := by
  obtain ⟨d, hd, hp⟩ := Option.bind_eq_some_iff.mp hp
  obtain ⟨d', hd', hproto, -⟩ := g.closure hd
  rw [hd', Option.bind_some, hproto]
  exact g.protos hp

theorem Activation.Tended.later {a : Activation} {h k : Heap} (ha : a.Tended natives limit h)
    (g : h.Conserves k) : a.Tended natives limit k := by
  cases a with
  | guest f =>
    obtain ⟨hbase, p, hp⟩ := ha
    exact ⟨hbase, p, g.code hp⟩
  | native call => exact ha

theorem Activation.Tended.floor_le {a : Activation} {h : Heap} (ha : a.Tended natives limit h) :
    a.floor ≤ limit := by
  cases a <;> exact ha.1

namespace State.Tended

/-- The same activations, later. -/
theorem later (h : s.Tended natives o limit) (hoptions : t.options = s.options)
    (hcalls : t.activations = s.activations) (g : s.heap.Conserves t.heap) :
    t.Tended natives o limit where
  options := hoptions.trans h.options
  depth := by
    rw [hcalls]
    exact h.depth
  calls a ha := (h.calls a (hcalls ▸ ha)).later g

theorem modest (h : s.Tended natives o limit) (hm : s.Modest t) : t.Tended natives o limit := by
  refine ⟨hm.options.trans h.options, ?_, fun a ha ↦ ?_⟩
  · have hdepth := h.depth
    have hcalls := hm.calls
    generalize s.activations = calls, t.activations = calls' at hcalls hdepth
    cases hcalls with
    | refl => exact hdepth
    | guest => exact hdepth
  · have hold := h.calls
    have hcalls := hm.calls
    generalize s.activations = calls, t.activations = calls' at hcalls hold ha
    cases hcalls with
    | refl => exact (hold a ha).later hm.code
    | guest f ip cells rest =>
      obtain rfl | ha := List.mem_cons.mp ha
      · exact (hold (.guest f) List.mem_cons_self).later hm.code
      · exact (hold a (List.mem_cons_of_mem _ ha)).later hm.code

/-- Activations may end. -/
theorem leave (h : s.Tended natives o limit) {rest : List Activation}
    (hrest : rest <:+ s.activations) : State.Tended natives o limit { s with activations := rest } :=
  ⟨h.options, hrest.length_le.trans h.depth, fun a ha ↦ h.calls a (hrest.mem ha)⟩

theorem code (h : s.Tended natives o limit) {f : Frame} (hf : f ∈ s.frames) :
    ∃ p, s.proto? f.closure = some p := by
  obtain ⟨a, ha, hguest⟩ := List.mem_filterMap.mp hf
  cases a with
  | native => cases hguest
  | guest g =>
    cases hguest
    exact (h.calls _ ha).2

/-- Every guest function has a place. -/
theorem place?_eq (h : s.Tended natives o limit) {f : Frame} {rest : List Frame}
    (hframes : s.frames = f :: rest) : ∃ p, s.proto? f.closure = some p ∧
      s.place? = some ⟨p.name, p.lines.getD (f.ip - 1) 0⟩ := by
  obtain ⟨p, hp⟩ := h.code (f := f) (by rw [hframes]; exact List.mem_cons_self)
  exact ⟨p, hp, by simp [place?, hframes, hp]⟩

theorem frames_eq_nil (h : s.Tended natives o limit) (hplace : s.place? = none) : s.frames = [] := by
  cases hframes : s.frames with
  | nil => rfl
  | cons f rest =>
    obtain ⟨p, -, hp⟩ := h.place?_eq hframes
    rw [hplace] at hp
    cases hp

/-- Code that is loaded changes no place. -/
theorem place?_later (h : s.Tended natives o limit) (hcalls : t.activations = s.activations)
    (g : s.heap.Conserves t.heap) : t.place? = s.place? := by
  have hframes : t.frames = s.frames := by rw [frames, frames, hcalls]
  cases hs : s.frames with
  | nil => simp [place?, hframes, hs]
  | cons f rest =>
    obtain ⟨p, hp, hplace⟩ := h.place?_eq hs
    have hp' : t.proto? f.closure = some p := g.code hp
    rw [hplace, place?, hframes, hs, List.head?_cons, Option.bind_some, hp', Option.map_some]

end State.Tended

namespace Transition

theorem unwind_suffix (floor : Nat) (calls : List Activation) : (unwind floor calls).2 <:+ calls := by
  fun_induction unwind floor calls with
  | case1 _ f rest ih => exact ih.trans (List.suffix_cons _ _)
  | case2 => exact List.suffix_refl _

theorem unwind_floor_le {floor : Nat} {calls : List Activation} (hfloor : floor ≤ limit)
    (hcalls : ∀ a ∈ calls, a.floor ≤ limit) : (unwind floor calls).1 ≤ limit := by
  fun_induction unwind floor calls with
  | case1 _ f rest ih =>
    exact ih (hcalls (.guest f) List.mem_cons_self) fun a ha ↦ hcalls a (List.mem_cons_of_mem _ ha)
  | case2 => exact hfloor

theorem unwind_waits (floor : Nat) (calls : List Activation) : ¬ IsGuest (unwind floor calls).2 := by
  fun_induction unwind floor calls with
  | case1 _ f rest ih => exact ih
  | case2 calls _ hguest =>
    intro h
    obtain ⟨f, rest, rfl⟩ := exists_of_isGuest h
    exact hguest f rest rfl

/-- The step fails with `e`. The place that is noted, or that will be, is `place`. -/
inductive Fails (natives : Array Native) (o : Options) (limit : Nat) (place : Option Location)
    (e : RuntimeError) : Transition → Prop
  | intro {s : State} (tended : s.Tended natives o limit) (fits : s.stack.size ≤ limit)
      (waits : ¬ IsGuest s.activations) (noted : s.location.or s.place? = place) :
      Fails natives o limit place e (.next (.deliver (.error e)) s)

/-- The step goes on, or fails at `place`. -/
inductive Tended (natives : Array Native) (o : Options) (limit : Nat) (place : Option Location) :
    Transition → Prop
  | next {m : Mode} {s : State} (tended : s.Tended natives o limit) (fits : s.stack.size ≤ limit)
      (running : m = .execute ↔ IsGuest s.activations) (calm : ∀ e, m ≠ .deliver (.error e))
      (unnoted : s.location = none) : Tended natives o limit place (.next m s)
  | fails {e : RuntimeError} {x : Transition} (h : Fails natives o limit place e x) :
      Tended natives o limit place x

variable {place : Option Location}

theorem fails_guestError (h : s.Tended natives o limit)
    (hfits : s.stack.size ≤ limit ∨ IsGuest s.activations) (hplace : s.location.or s.place? = place)
    (e : RuntimeError) : Fails natives o limit place e (guestError e s) := by
  have hfloor : (unwind s.stack.size s.activations).1 ≤ limit := by
    have hcalls : ∀ a ∈ s.activations, a.floor ≤ limit := fun a ha ↦ (h.calls a ha).floor_le
    obtain hfits | hguest := hfits
    · exact unwind_floor_le hfits hcalls
    · match hs : s.activations, hguest with
      | .guest f :: rest, _ =>
        rw [hs] at hcalls
        change (unwind f.base rest).1 ≤ limit
        exact unwind_floor_le (hcalls (.guest f) List.mem_cons_self) fun a ha ↦
          hcalls a (List.mem_cons_of_mem _ ha)
  have hsuffix := unwind_suffix s.stack.size s.activations
  rw [guestError, State.noteLocation_apply]
  refine .intro ?_ ?_ (unwind_waits _ _) ?_
  · exact (h.leave hsuffix).later rfl rfl (.refl _)
  · simp only [State.truncate, Array.size_shrink]
    exact (Nat.min_le_left _ _).trans hfloor
  · cases hnoted : s.location.or s.place? with
    | some l => simp [State.truncate, hnoted, ← hplace]
    | none =>
      have hframes := h.frames_eq_nil (Option.or_eq_none_iff.mp hnoted).2
      have hnone : ({ s with activations := (unwind s.stack.size s.activations).2 } : State).place? =
          none := by
        rw [State.place?, show State.frames _ = [] from List.suffix_nil.mp (hframes ▸ hsuffix.filterMap _)]
        rfl
      rw [← hplace, hnoted]
      exact hnone

theorem tended_giveResults (h : s.Tended natives o limit) (hfits : s.stack.size ≤ limit)
    (hlimit : o.maxStack ≤ limit) (hnone : s.location = none) (results : List Value)
    (expected : Option Nat) : (giveResults results expected s).Tended natives o limit s.place? := by
  unfold giveResults
  split
  · next f rest hcalls =>
    have hmodest := Abides.keeps (R := State.Modest) (m := placeResults results expected) s
    have htended := h.modest hmodest
    have hroom : (final (placeResults results expected s)).stack.size ≤ limit :=
      hmodest.fits.trans (Nat.max_le.mpr ⟨hfits, h.options ▸ hlimit⟩)
    have hsame : (final (placeResults results expected s)).activations = s.activations := by
      rw [placeResults_eq, pushAll_activations]
      cases expected <;> rfl
    have hguest : IsGuest (final (placeResults results expected s)).activations := by
      rw [hsame, hcalls]
      trivial
    have hunnoted := hmodest.location.trans hnone
    have hplace := h.place?_later hsame hmodest.code
    split
    · next t ht =>
      rw [ht] at htended hroom hguest hunnoted
      exact .next htended hroom (iff_of_true rfl hguest) (by simp) hunnoted
    · next e t ht =>
      rw [ht, final_error] at htended hroom hguest hunnoted hplace
      refine .fails (fails_guestError htended (.inl hroom) ?_ e)
      rw [hunnoted, hplace, Option.none_or]
  · next hcalls =>
    refine .next h hfits (iff_of_false (by simp) fun hguest ↦ ?_) (by simp) hnone
    obtain ⟨f, rest, hs⟩ := exists_of_isGuest hguest
    exact hcalls f rest hs

end Transition

theorem Machine.enterClosure_of_none {c : Nat} (hp : s.proto? c = none) (floor : Nat)
    (expected : Option Nat) : ∃ e, enterClosure c floor expected s = .error e s := by
  unfold enterClosure checkDepth
  simp only [bind_apply, get_apply]
  by_cases hdepth : s.options.maxCallDepth ≤ s.activations.length
  · rw [if_pos hdepth]
    exact ⟨_, rfl⟩
  · rw [if_neg hdepth]
    simp only [pure_apply, hp]
    exact ⟨_, rfl⟩

theorem Machine.enterNative_of_none {b : Nat} (hb : natives[b]? = none) (floor argCount : Nat)
    (expected : Option Nat) (s : State) :
    ∃ e, enterNative natives b floor argCount expected s = .error e s := by
  unfold enterNative checkDepth
  simp only [bind_apply, get_apply, hb]
  by_cases hdepth : s.options.maxCallDepth ≤ s.activations.length
  · rw [if_pos hdepth]
    exact ⟨_, rfl⟩
  · rw [if_neg hdepth]
    exact ⟨_, rfl⟩

/-- A builtin runs on top of activations that are as they should be. -/
structure State.Operates (natives : Array Native) (o : Options) (limit : Nat) (n : Native)
    (call : NativeCall) (rest : List Activation) (s : State) : Prop where
  calls : s.activations = .native call :: rest
  below : State.Tended natives o limit { s with activations := rest }
  depth : rest.length < o.maxCallDepth
  base : call.base - 1 ≤ limit
  known : natives[call.native]? = some n

theorem State.Operates.later {n : Native} {call : NativeCall} {rest : List Activation}
    {m : Machine Outcome} (h : s.Operates natives o limit n call rest)
    (hm : Contained m) (hcode : s.heap.Conserves (final (m s)).heap)
    (hoptions : (final (m s)).options = s.options) :
    (final (m s)).Operates natives o limit n call rest := by
  have hcalls := (hm s call rest h.calls).1
  exact ⟨hcalls.trans h.calls, h.below.later hoptions rfl hcode, h.depth, h.base, h.known⟩

theorem State.place?_native {call : NativeCall} {rest : List Activation}
    (h : s.activations = .native call :: rest) :
    ({ s with activations := rest } : State).place? = s.place? := by
  have hframes : ({ s with activations := rest } : State).frames = s.frames := by
    rw [frames, frames, h]
    rfl
  unfold place?
  rw [hframes]
  rfl

namespace Transition

variable {place : Option Location} {n : Native} {call : NativeCall} {rest : List Activation}

theorem fails_nativeError (h : s.Operates natives o limit n call rest)
    (hplace : s.location.or s.place? = place) (e : RuntimeError) :
    Fails natives o limit place e (nativeError e s) := by
  rw [← State.place?_native h.calls] at hplace
  simp only [nativeError, h.calls]
  split
  · exact fails_guestError h.below (.inr trivial) hplace e
  · next hguest =>
    refine .intro (h.below.later rfl rfl (.refl _)) ?_ (fun h ↦ ?_) hplace
    · simp only [State.truncate, Array.size_shrink]
      exact (Nat.min_le_left _ _).trans h.base
    · obtain ⟨f, rest, rfl⟩ := exists_of_isGuest h
      exact hguest f rest rfl

theorem tended_nativeResults (h : s.Operates natives o limit n call rest) (hlimit : o.maxStack ≤ limit)
    (hnone : s.location = none) : (nativeResults s).Tended natives o limit s.place? := by
  rw [← State.place?_native h.calls]
  simp only [nativeResults, h.calls]
  have hbelow : State.Tended natives o limit ({ s with activations := rest }.truncate (call.base - 1)) :=
    h.below.later rfl rfl (.refl _)
  refine tended_giveResults hbelow ?_ hlimit hnone _ _
  simp only [State.truncate, Array.size_shrink]
  exact (Nat.min_le_left _ _).trans h.base

/-- A builtin that runs ends, or makes a call. -/
theorem tended_afterNative {m : Machine Outcome} (hcontained : Contained m) (hturn : n.Turn m)
    (h : s.Operates natives o limit n call rest) (hfits : s.stack.size ≤ limit)
    (hlimit : o.maxStack ≤ limit) (hnone : s.location = none) :
    (afterNative (m s)).Tended natives o limit s.place? := by
  have htame := hturn.tame.keeps s
  have hserving := State.Operates.later h hcontained htame.code htame.options
  have hunnoted := htame.location.trans hnone
  have hplace : (final (m s)).place? = s.place? := by
    rw [← State.place?_native h.calls, ← State.place?_native hserving.calls]
    exact h.below.place?_later rfl htame.code
  rw [← hplace]
  cases hm : m s with
  | error e t =>
    rw [hm, final_error] at hserving hunnoted
    refine .fails (fails_nativeError hserving ?_ e)
    rw [hunnoted]
    rfl
  | ok outcome t =>
    rw [hm, final_ok] at hserving hunnoted
    cases outcome with
    | finished => exact tended_nativeResults hserving hlimit hunnoted
    | invoke callee args memo =>
      obtain ⟨hstack, hsettles⟩ := hturn.invokes s callee args memo t hm
      simp only [afterNative, remember, hserving.calls]
      refine .next ⟨hserving.below.options, hserving.depth, fun a ha ↦ ?_⟩ (hstack ▸ hfits)
        (iff_of_false (by simp) id) (by simp) hunnoted
      obtain rfl | ha := List.mem_cons.mp ha
      · exact ⟨hserving.base, n, hserving.known, hsettles hnone⟩
      · exact hserving.below.calls a ha

section

variable (hnatives : ∀ b ∈ natives, ∃ c : Builtin, b = c.native) (hlimit : o.maxStack ≤ limit)

include hnatives hlimit

theorem tended_enterCallee {fail : RuntimeError → State → Transition} {floor : Nat}
    (h : s.Tended natives o limit) (hfits : s.stack.size ≤ limit) (hnone : s.location = none)
    (hfloor : floor ≤ limit) (hfail : ∀ e, (fail e s).Tended natives o limit s.place?)
    (callee : Value) (argCount : Nat) (expected : Option Nat) :
    (enterCallee natives fail callee floor argCount expected s).Tended natives o limit s.place? := by
  unfold enterCallee
  split
  · next c =>
    cases hp : s.proto? c with
    | none =>
      obtain ⟨e, he⟩ := enterClosure_of_none hp floor expected
      rw [he]
      exact hfail e
    | some p =>
      rw [enterClosure_apply hp]
      by_cases hdepth : s.options.maxCallDepth ≤ s.activations.length
      · rw [if_pos hdepth]
        exact hfail _
      · rw [if_neg hdepth]
        refine .next ⟨h.options, ?_, fun a ha ↦ ?_⟩ ?_ (iff_of_true rfl trivial)
          (fun _ h ↦ nomatch h) hnone
        · rw [← h.options]
          exact Nat.lt_of_not_le hdepth
        · obtain rfl | ha := List.mem_cons.mp ha
          · exact ⟨hfloor, p, hp⟩
          · exact (h.calls a ha).later ⟨id, id⟩
        · simp only [entered, State.truncate, Array.size_shrink]
          exact (Nat.min_le_left _ _).trans hfloor
  · next b =>
    cases hb : natives[b]? with
    | none =>
      obtain ⟨e, he⟩ := enterNative_of_none hb floor argCount expected s
      rw [he]
      exact hfail e
    | some n =>
      rw [enterNative_apply hb]
      by_cases hdepth : s.options.maxCallDepth ≤ s.activations.length
      · rw [if_pos hdepth]
        exact hfail _
      · rw [if_neg hdepth]
        obtain ⟨c, rfl⟩ := hnatives n (Array.mem_of_getElem? hb)
        rw [h.options, Nat.not_le] at hdepth
        have hserving : State.Operates natives o limit c.native
            ⟨b, c.native.name, floor + 1, argCount, expected, .nothing⟩ s.activations
            { s with activations :=
                .native ⟨b, c.native.name, floor + 1, argCount, expected, .nothing⟩ :: s.activations } :=
          ⟨rfl, h, hdepth, (Nat.add_sub_cancel floor 1).le.trans hfloor, hb⟩
        exact tended_afterNative c.contained.start c.tame.start hserving hfits hlimit hnone
  · exact hfail _

theorem tended_guestCall (h : s.Tended natives o limit) (hfits : s.stack.size ≤ limit)
    (hnone : s.location = none) (argCount : Nat) (expected : Option Nat) :
    (guestCall natives argCount expected s).Tended natives o limit s.place? := by
  have hfail (e : RuntimeError) : (guestError e s).Tended natives o limit s.place? :=
    .fails (fails_guestError h (.inl hfits) (by rw [hnone, Option.none_or]) e)
  rw [guestCall_eq]
  split
  · exact hfail _
  · exact tended_enterCallee hnatives hlimit h hfits hnone (by omega) hfail _ _ _

theorem tended_hostCall (h : s.Tended natives o limit) (hfits : s.stack.size ≤ limit)
    (hwaits : ¬ IsGuest s.activations) (hnone : s.location = none ∨ s.activations = [])
    (callee : Value) (args : List Value) :
    (hostCall natives callee args s).Tended natives o limit s.place? := by
  have hstart : (if s.activations.isEmpty then { s with location := none } else s) =
      { s with location := none } := by
    split
    · rfl
    · next hempty =>
      obtain hnone | hcalls := hnone
      · rw [← hnone]
      · simp [hcalls] at hempty
  rw [hostCall_eq, hstart]
  dsimp only
  have hfail (pushed : List Value) (e : RuntimeError) : Tended natives o limit s.place? (.next
      (.deliver (.error e))
      (State.truncate { s with location := none, stack := s.stack ++ pushed } s.stack.size)) := by
    refine .fails (.intro (h.later rfl rfl (.refl _)) ?_ hwaits rfl)
    simp only [State.truncate, Array.size_shrink]
    exact (Nat.min_le_left _ _).trans hfits
  obtain hpushed | ⟨pushed, hpushed⟩ := pushAll_cases (callee :: args) { s with location := none }
  · have hroom := (Abides.keeps (R := State.Modest) (m := pushAll (callee :: args))
      { s with location := none }).fits
    rw [hpushed] at hroom ⊢
    have hready : State.Tended natives o limit
        { s with location := none, stack := s.stack ++ (callee :: args) } := h.later rfl rfl (.refl _)
    refine tended_enterCallee hnatives hlimit hready ?_ rfl hfits ?_ _ _ _
    · exact hroom.trans (Nat.max_le.mpr ⟨hfits, h.options ▸ hlimit⟩)
    · exact hfail (callee :: args)
  · rw [hpushed]
    exact hfail _ _

theorem tended_handOver {result : Except RuntimeError (List Value)} {call : NativeCall}
    {rest : List Activation} (h : s.Tended natives o limit) (hfits : s.stack.size ≤ limit)
    (hcalls : s.activations = .native call :: rest)
    (hnone : (∀ e, result ≠ .error e) → s.location = none) :
    (∃ e, Mode.PassesOn natives e (.deliver result) s ∧
        Fails natives o limit (s.location.or s.place?) e (handOver natives result s)) ∨
      (∀ e, ¬ Mode.PassesOn natives e (.deliver result) s) ∧
        (handOver natives result s).Tended natives o limit s.place? := by
  have hserving {n : Native} (hn : natives[call.native]? = some n) :
      s.Operates natives o limit n call rest := by
    have hdepth := h.depth
    have hbase := h.calls (.native call) (hcalls ▸ List.mem_cons_self)
    rw [hcalls] at hdepth
    exact ⟨hcalls, h.leave (hcalls ▸ List.suffix_cons _ _), hdepth, hbase.1, hn⟩
  obtain ⟨-, n, hn, hsettles⟩ := h.calls (.native call) (hcalls ▸ List.mem_cons_self)
  obtain ⟨c, rfl⟩ := hnatives n (Array.mem_of_getElem? hn)
  simp only [handOver, hcalls, hn]
  cases result with
  | ok results =>
    refine .inr ⟨fun e hpasses ↦ absurd hpasses.1 (by simp), ?_⟩
    exact tended_afterNative (c.contained.resume _ _) (c.tame.resume _ _) (hserving hn) hfits hlimit
      (hnone (by simp))
  | error e =>
    obtain hfails | ⟨t, ht, hforgot, hoptions, hcode⟩ := hsettles e s
    · rw [hfails]
      exact .inl ⟨e, ⟨rfl, call, rest, _, hcalls, hn, hfails⟩, fails_nativeError (hserving hn) rfl e⟩
    · have hdone := (hserving hn).later (c.contained.resume call.memo (.error e)) (by rwa [ht])
        (by rwa [ht])
      rw [ht, final_ok] at hdone
      rw [ht]
      have hplace : t.place? = s.place? := by
        rw [← State.place?_native hcalls, ← State.place?_native hdone.calls]
        exact (hserving hn).below.place?_later rfl hcode
      refine .inr ⟨?_, hplace ▸ tended_nativeResults hdone hlimit hforgot⟩
      rintro e' ⟨hmode, call', rest', n, hcalls', hn', hfails⟩
      cases hmode
      cases hcalls.symm.trans hcalls'
      cases hn.symm.trans hn'
      cases ht.symm.trans hfails

/-- An instruction is done, or fails, or is a call or a return. -/
theorem tended_execute (h : s.Tended natives o limit) (hfits : s.stack.size ≤ limit)
    (hguest : IsGuest s.activations) (hnone : s.location = none) :
    (step natives .execute s).Tended natives o limit (Mode.scene .execute s).place? := by
  have hmodest := Abides.keeps (R := State.Modest) (m := instruction) s
  have htended := h.modest hmodest
  have hroom : (final (instruction s)).stack.size ≤ limit :=
    hmodest.fits.trans (Nat.max_le.mpr ⟨hfits, h.options ▸ hlimit⟩)
  have hunnoted := hmodest.location.trans hnone
  have hguest : IsGuest (final (instruction s)).activations := by
    have hcalls := hmodest.calls
    generalize s.activations = calls, (final (instruction s)).activations = calls' at hcalls hguest
    cases hcalls with
    | refl => exact hguest
    | guest => trivial
  rw [step_execute, Mode.scene]
  match hrun : instruction s with
  | .ok .nothing t =>
    rw [hrun] at htended hroom hunnoted hguest
    exact .next htended hroom (iff_of_true rfl hguest) (fun _ h ↦ nomatch h) hunnoted
  | .ok (.call argCount expected) t =>
    rw [hrun] at htended hroom hunnoted
    exact tended_guestCall hnatives hlimit htended hroom hunnoted argCount expected
  | .ok (.ret results) t =>
    rw [hrun, final_ok] at htended hroom hunnoted hguest
    match hcalls : t.activations, hguest with
    | .guest f :: rest, _ =>
      have hbelow : State.Tended natives o limit ({ t with activations := rest }.truncate f.base) :=
        (htended.leave (hcalls ▸ List.suffix_cons _ _)).later rfl rfl (.refl _)
      simp only [afterInstruction, guestReturn, hcalls, List.tail_cons]
      refine tended_giveResults hbelow ?_ hlimit hunnoted _ _
      simp only [State.truncate, Array.size_shrink]
      exact (Nat.min_le_right _ _).trans hroom
  | .error e t =>
    rw [hrun, final_error] at htended hroom hunnoted
    refine .fails (fails_guestError htended (.inl hroom) ?_ e)
    rw [hunnoted]
    rfl

end

end Transition

/-- The machine is as it should be, with `m` to happen next. -/
structure Mode.Tended (natives : Array Native) (o : Options) (limit : Nat) (m : Mode) (s : State) :
    Prop where
  state : s.Tended natives o limit
  fits : s.stack.size ≤ limit
  running : m = .execute ↔ IsGuest s.activations
  unnoted : (∀ e, m ≠ .deliver (.error e)) →
    s.location = none ∨ s.activations = [] ∧ ∃ callee args, m = .enter callee args

theorem Transition.Tended.mode {place : Option Location} {m : Mode}
    (h : (Transition.next m s).Tended natives o limit place) : m.Tended natives o limit s := by
  cases h with
  | next tended fits running calm unnoted => exact ⟨tended, fits, running, fun _ ↦ .inl unnoted⟩
  | fails h =>
    cases h with
    | intro tended fits waits noted =>
      exact ⟨tended, fits, iff_of_false (fun h ↦ nomatch h) waits, fun hcalm ↦ absurd rfl (hcalm _)⟩

/-- A host may call into a machine in which nothing runs. -/
theorem Mode.Tended.enter (hcalls : s.activations = []) (hfits : s.stack.size ≤ limit) (callee : Value)
    (args : List Value) : (Mode.enter callee args).Tended natives s.options limit s where
  state := ⟨rfl, by simp [hcalls], by simp [hcalls]⟩
  fits := hfits
  running := iff_of_false (fun h ↦ nomatch h) (by rw [hcalls]; exact id)
  unnoted _ := .inr ⟨hcalls, callee, args, rfl⟩

section

variable (hnatives : ∀ b ∈ natives, ∃ c : Builtin, b = c.native) (hlimit : o.maxStack ≤ limit)

include hnatives hlimit

/-- A step ends the run, or an error is passed on, or the step fails at its scene if it fails. -/
theorem Mode.Tended.step {m : Mode} (h : m.Tended natives o limit s) :
    (∃ result, m = .deliver result ∧ s.activations = [] ∧ step natives m s = .halt result s) ∨
      (∃ e, m.PassesOn natives e s ∧
        (step natives m s).Fails natives o limit (s.location.or s.place?) e) ∨
      (∀ e, ¬ m.PassesOn natives e s) ∧
        (step natives m s).Tended natives o limit (m.scene s).place? := by
  obtain ⟨hstate, hfits, hrunning, hunnoted⟩ := h
  match m with
  | .execute =>
    have hnone : s.location = none := by
      obtain hnone | ⟨-, callee, args, h⟩ := hunnoted fun _ h ↦ nomatch h
      · exact hnone
      · cases h
    exact .inr (.inr ⟨fun e h ↦ (nomatch h.1),
      Transition.tended_execute hnatives hlimit hstate hfits (hrunning.mp rfl) hnone⟩)
  | .enter callee args =>
    have hwaits : ¬ IsGuest s.activations := fun h ↦ nomatch hrunning.mpr h
    have hnone : s.location = none ∨ s.activations = [] :=
      (hunnoted fun _ h ↦ nomatch h).imp_right And.left
    exact .inr (.inr ⟨fun e h ↦ (nomatch h.1),
      Transition.tended_hostCall hnatives hlimit hstate hfits hwaits hnone callee args⟩)
  | .deliver result =>
    have hwaits : ¬ IsGuest s.activations := fun h ↦ nomatch hrunning.mpr h
    have hnone (hcalm : ∀ e, result ≠ .error e) : s.location = none := by
      obtain hnone | ⟨-, callee, args, h⟩ := hunnoted fun e h ↦ hcalm e (Mode.deliver.inj h)
      · exact hnone
      · cases h
    match hcalls : s.activations, hwaits with
    | [], _ =>
      refine .inl ⟨result, rfl, rfl, ?_⟩
      simp only [MiniLua.step, Transition.handOver, hcalls]
    | .guest f :: rest, hwaits => exact absurd trivial hwaits
    | .native call :: rest, _ =>
      exact .inr (Transition.tended_handOver hnatives hlimit hstate hfits hcalls hnone)

theorem Mode.Tended.run {m m' : Mode} (h : m.Tended natives o limit s) {k : Nat}
    (hrun : run natives k m s = .running m' t) : m'.Tended natives o limit t := by
  induction k generalizing m s with
  | zero =>
    cases hrun
    exact h
  | succ k ih =>
    have hcases := h.step hnatives hlimit
    cases hstep : MiniLua.step natives m s with
    | halt =>
      rw [MiniLua.run, hstep] at hrun
      cases hrun
    | next m₁ s₁ =>
      rw [run_of_next hstep] at hrun
      rw [hstep] at hcases
      refine ih ?_ hrun
      obtain ⟨result, -, -, hhalt⟩ | ⟨e, -, hfails⟩ | ⟨-, htended⟩ := hcases
      · cases hhalt
      · exact (Transition.Tended.fails hfails).mode
      · exact htended.mode

end

end

end MiniLua
