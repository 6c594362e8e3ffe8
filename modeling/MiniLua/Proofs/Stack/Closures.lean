import MiniLua.Proofs.Stack.Passes
import MiniLua.Proofs.Twins.Natives

/-! Closures of compiled code hold as many cells as their code captures. -/

namespace MiniLua

open Effects

namespace Heap

/-- The prototype is one the compiler made of some text, and a wide operand can name each of its
instructions and nested prototypes. -/
def Compiled (h : Heap) (i : Nat) : Prop :=
  ∃ source chunkName h₀ h₁ main p, h₀.strings.Sound ∧ compile source chunkName h₀ = .ok main h₁ ∧
    h₁.Extends h ∧ h₀.protos.size ≤ i ∧ h₁.protos[i]? = some p ∧
    p.code.size < Instruction.wideLimit ∧ p.protos.size < Instruction.wideLimit

/-- All closures run compiled code. -/
def CompiledOnly (h : Heap) : Prop := ∀ c ∈ h.closures, h.Compiled c.proto

variable {h k l : Heap} {i : Nat} {p : Prototype}

theorem Compiled.sound (hi : h.Compiled i) (hp : h.protos[i]? = some p) :
    Sound p h 0 ⟨[], List.range p.arity, false⟩ := by
  obtain ⟨source, chunkName, h₀, h₁, main, q, hsound, hcompile, hext, hlow, hq, hcode, hfew⟩ := hi
  obtain rfl := Option.some.inj (hp.symm.trans (hext.protos hq))
  exact sound_of_laid ((added_of_compile hsound hcompile hlow hq).2 h hext) hcode hfew

/-- The last prototype of a text is the main one, which captures nothing. -/
theorem Compiled.captures_of_last (hi : h.Compiled i) (hp : h.protos[i]? = some p)
    (hlast : i + 1 = h.protos.size) : p.captures = #[] := by
  obtain ⟨source, chunkName, h₀, h₁, main, q, hsound, hcompile, hext, -, hq, -, -⟩ := hi
  obtain rfl := Option.some.inj (hp.symm.trans (hext.protos hq))
  obtain ⟨chunk, proto, -, hmain, hat⟩ := laid_of_compile hsound hcompile
  obtain ⟨-, s, -, -, hs, rfl⟩ := compile_eq_ok hcompile
  have hsize := hext.size
  have hi := (Array.getElem?_eq_some_iff.mp hq).1
  have hmain' : main + 1 = (s.heap.allocProto s.finished).2.protos.size := by
    simp [hs, Heap.allocProto]
  obtain rfl : i = main := by omega
  obtain rfl := Option.some.inj (hq.symm.trans hmain)
  exact (hat h hext).1

/-- What closures run, and the cells they hold. -/
def links (h : Heap) : Array (Nat × Array Nat) := h.closures.map fun c ↦ (c.proto, c.upvalues)

/-- A closure's code is there, and the closure has a cell for every capture of it. -/
def Fit (h : Heap) (link : Nat × Array Nat) : Prop :=
  ∃ p, h.protos[link.1]? = some p ∧ link.2.size = p.captures.size

def Sized (h : Heap) : Prop := ∀ link ∈ h.links, h.Fit link

theorem Sized.proto (hh : h.Sized) {c : Nat} (hc : c < h.closures.size) :
    ∃ p, ((h.closures[c]?).bind fun c ↦ h.protos[c.proto]?) = some p := by
  have hlink : (h.closures[c].proto, h.closures[c].upvalues) ∈ h.links :=
    Array.mem_map.mpr ⟨_, Array.getElem_mem hc, rfl⟩
  obtain ⟨p, hp, -⟩ := hh _ hlink
  exact ⟨p, by rw [Array.getElem?_eq_getElem hc]; exact hp⟩

/-- The same, but that code which has just been loaded may capture what nobody has. -/
def NearlySized (h : Heap) : Prop :=
  ∀ link ∈ h.links, h.Fit link ∨ link.1 + 1 = h.protos.size ∧ link.2 = #[]

theorem NearlySized.sized (hh : h.NearlySized) (hcompiled : h.CompiledOnly) : h.Sized := by
  intro link hlink
  obtain hfit | ⟨hlast, hnone⟩ := hh link hlink
  · exact hfit
  · obtain ⟨c, hc, rfl⟩ := Array.mem_map.mp hlink
    dsimp only at hlast hnone
    have hp := Array.getElem?_eq_getElem (show c.proto < h.protos.size by omega)
    exact ⟨_, hp, by rw [hnone, (hcompiled c hc).captures_of_last hp hlast]; rfl⟩

/-- Nothing that runs is lost. -/
structure Conserves (h k : Heap) : Prop where
  protos {i : Nat} {p : Prototype} : h.protos[i]? = some p → k.protos[i]? = some p
  links {i : Nat} {link : Nat × Array Nat} : h.links[i]? = some link → k.links[i]? = some link

theorem Conserves.refl (h : Heap) : h.Conserves h := ⟨id, id⟩

theorem Conserves.trans (g : h.Conserves k) (g' : k.Conserves l) : h.Conserves l :=
  ⟨fun hp ↦ g'.protos (g.protos hp), fun hl ↦ g'.links (g.links hl)⟩

/-- What runs is the same. -/
structure SameLinks (h k : Heap) : Prop where
  protos : k.protos = h.protos
  links : k.links = h.links

theorem SameLinks.refl (h : Heap) : h.SameLinks h := ⟨rfl, rfl⟩

theorem SameLinks.trans (g : h.SameLinks k) (g' : k.SameLinks l) : h.SameLinks l :=
  ⟨g'.protos.trans g.protos, g'.links.trans g.links⟩

theorem SameLinks.conserves (g : h.SameLinks k) : h.Conserves k :=
  ⟨fun hp ↦ g.protos ▸ hp, fun hl ↦ g.links ▸ hl⟩

theorem SameLinks.sized (g : h.SameLinks k) (hh : h.Sized) : k.Sized := by
  unfold Sized Fit
  rw [g.protos, g.links]
  exact hh

/-- Closures that are made have their cells. -/
structure Secures (h k : Heap) : Prop extends h.Conserves k where
  sized : h.Sized → k.Sized

theorem Secures.trans (g : h.Secures k) (g' : k.Secures l) : h.Secures l :=
  ⟨g.toConserves.trans g'.toConserves, fun hh ↦ g'.sized (g.sized hh)⟩

theorem SameLinks.secures (g : h.SameLinks k) : h.Secures k := ⟨g.conserves, g.sized⟩

theorem links_allocClosure (h : Heap) (c : Closure) :
    (h.allocClosure c).2.links = h.links.push (c.proto, c.upvalues) := by
  simp [links, allocClosure]

theorem Conserves.allocClosure (h : Heap) (c : Closure) : h.Conserves (h.allocClosure c).2 := by
  refine ⟨id, fun {i link} hlink ↦ ?_⟩
  obtain ⟨hlt, -⟩ := Array.getElem?_eq_some_iff.mp hlink
  rw [links_allocClosure, Array.getElem?_push_lt hlt, ← hlink, Array.getElem?_eq_getElem hlt]

theorem Secures.allocClosure {c : Closure} (hc : h.Fit (c.proto, c.upvalues)) :
    h.Secures (h.allocClosure c).2 := by
  refine ⟨.allocClosure h c, fun hh link hlink ↦ ?_⟩
  rw [links_allocClosure] at hlink
  obtain hlink | rfl := Array.mem_push.mp hlink
  · exact hh link hlink
  · exact hc

/-- Code may have been loaded, and a closure made of it. -/
structure Loads (h k : Heap) : Prop extends h.Conserves k where
  sized : h.Sized → k.NearlySized

theorem Sized.nearly (hh : h.Sized) : h.NearlySized := fun link hlink ↦ .inl (hh link hlink)

theorem SameLinks.loads (g : h.SameLinks k) : h.Loads k := ⟨g.conserves, fun hh ↦ (g.sized hh).nearly⟩

theorem Loads.trans_sameLinks (g : h.Loads k) (g' : k.SameLinks l) : h.Loads l := by
  refine ⟨g.toConserves.trans g'.conserves, fun hh ↦ ?_⟩
  unfold NearlySized Fit
  rw [g'.protos, g'.links]
  exact g.sized hh

theorem Retains.sameLinks (g : h.Retains k) : h.SameLinks k := ⟨g.protos, g.closures⟩

end Heap

/-- A program that makes neither code nor closures. -/
class Steady {α : Type} (m : Machine α) : Prop where
  keeps : Keeps (fun s t ↦ s.heap.SameLinks t.heap) m

namespace Steady

variable {α β : Type} {m : Machine α}

instance : Std.Refl fun s t : State ↦ s.heap.SameLinks t.heap := ⟨fun _ ↦ .refl _⟩

instance : IsTrans State fun s t : State ↦ s.heap.SameLinks t.heap := ⟨fun _ _ _ ↦ .trans⟩

instance pure (a : α) : Steady (Pure.pure a : Machine α) := ⟨.pure a⟩

instance throw (e : RuntimeError) : Steady (throw e : Machine α) := ⟨.throw e⟩

instance get : Steady (get : Machine State) := ⟨.get⟩

instance bind {f : α → Machine β} [hm : Steady m] [hf : ∀ a, Steady (f a)] : Steady (m >>= f) :=
  ⟨hm.keeps.bind fun a ↦ (hf a).keeps⟩

instance mapM {γ : Type} {f : γ → Machine α} [hf : ∀ c, Steady (f c)] (cs : List γ) :
    Steady (cs.mapM f) := ⟨.mapM (fun c ↦ (hf c).keeps) cs⟩

instance map {f : α → β} [hm : Steady m] : Steady (f <$> m) := ⟨hm.keeps.map f⟩

instance ite {c : Prop} [Decidable c] {n : Machine α} [Steady m] [Steady n] :
    Steady (if c then m else n) := by
  split <;> assumption

theorem after {f : α → Machine β} [Steady m] (h : ∀ a, Steady (f a)) : Steady (m >>= f) := inferInstance

theorem modify {f : State → State} (h : ∀ s, (f s).heap = s.heap) :
    Steady (modify f : Machine PUnit) := by
  refine ⟨.modify fun s ↦ ?_⟩
  rw [h]
  exact .refl _

theorem onHeap {f : Heap → α × Heap} (h : ∀ heap : Heap, heap.SameLinks (f heap).2) :
    Steady (Machine.onHeap f) := ⟨fun s ↦ h s.heap⟩

theorem changeHeap {f : Heap → Heap} (h : ∀ heap : Heap, heap.SameLinks (f heap)) :
    Steady (Machine.changeHeap f) := ⟨fun s ↦ h s.heap⟩

end Steady

namespace Machine

variable {α : Type}

instance (r : Except RuntimeError α) : Steady (lift r) := by
  cases r
  · exact inferInstanceAs (Steady (throw _))
  · exact inferInstanceAs (Steady (pure _))

instance (v : Option α) : Steady (orOperand v) := by
  cases v
  · exact inferInstanceAs (Steady (throw _))
  · exact inferInstanceAs (Steady (pure _))

instance (fault : TypeFault) : Steady (typeError fault : Machine α) := Steady.throw _

instance (bytes : Bytes) : Steady (bytesValue bytes) := by
  have hintern : Steady (onHeap fun h ↦ h.intern bytes) := .onHeap fun _ ↦ ⟨rfl, rfl⟩
  unfold bytesValue
  infer_instance

instance : Steady newTable := by
  have halloc : Steady (onHeap fun h ↦ h.allocTable .empty) := .onHeap fun _ ↦ ⟨rfl, rfl⟩
  unfold newTable
  infer_instance

instance (v : Value) : Steady (push v) := by
  have hpush : Steady (modify fun s : State ↦ { s with stack := s.stack.push v }) :=
    .modify fun _ ↦ rfl
  unfold push
  infer_instance

instance (vs : List Value) : Steady (pushAll vs) := by
  induction vs with
  | nil => exact inferInstanceAs (Steady (pure _))
  | cons v vs ih =>
    rw [pushAll_cons]
    infer_instance

instance : Steady top := by
  refine .after fun s ↦ ?_
  split <;> infer_instance

instance : Steady pop := by
  have hpop : Steady (modify fun s : State ↦ { s with stack := s.stack.pop }) := .modify fun _ ↦ rfl
  unfold pop
  infer_instance

instance (n : Nat) : Steady (popMany n) := by
  have hpop (size : Nat) : Steady (modify fun s : State ↦ s.truncate size) := .modify fun _ ↦ rfl
  unfold popMany
  infer_instance

instance (object key : Value) : Steady (index object key) := by
  refine .after fun s ↦ ?_
  split <;> infer_instance

instance (t : Nat) (f : Table → Table) : Steady (changeHeap fun h ↦ h.modifyTable t f) :=
  .changeHeap fun _ ↦ ⟨rfl, rfl⟩

instance (object key value : Value) : Steady (setIndex object key value) := by
  unfold setIndex
  split
  · split <;> infer_instance
  · infer_instance

instance (results : List Value) (expected : Option Nat) : Steady (placeResults results expected) := by
  have hcount : Steady (modify fun s : State ↦ { s with lastMulti := results.length }) :=
    .modify fun _ ↦ rfl
  cases expected <;> (unfold placeResults; infer_instance)

instance (f : Frame → Frame) : Steady (changeFrame f) := by
  refine .modify fun s ↦ ?_
  split <;> rfl

instance (x : Nat) : Steady (goTo x) := inferInstanceAs (Steady (changeFrame _))

instance (frame : Frame) (slot : Nat) : Steady (frameCell frame slot) :=
  inferInstanceAs (Steady (orOperand _))

instance (frame : Frame) (slot : Nat) : Steady (upvalueCell frame slot) := by
  refine .after fun s ↦ ?_
  split <;> infer_instance

instance (frame : Frame) : Steady (environment frame) := by
  refine .after fun s ↦ ?_
  split <;> infer_instance

instance (cell : Nat) (v : Value) : Steady (changeHeap fun h ↦ h.setCell cell v) :=
  .changeHeap fun _ ↦ ⟨rfl, rfl⟩

instance (v : Value) : Steady (onHeap fun h ↦ h.allocCell v) := .onHeap fun _ ↦ ⟨rfl, rfl⟩

instance (cell : Nat) : Steady (loadCell cell) := by
  unfold loadCell
  infer_instance

instance (cell : Nat) : Steady (storeCell cell) := by
  unfold storeCell
  infer_instance

instance (frame : Frame) (x : Nat) : Steady (loopCells frame x) := by
  unfold loopCells
  infer_instance

instance (v : Value) (what : String) : Steady (loopNumber v what) := by
  refine .after fun s ↦ ?_
  split <;> infer_instance

instance (cells : LoopCells) : Steady (prepareLoop cells) := by
  refine .after fun s ↦ .after fun counter ↦ .after fun limit ↦ .after fun step ↦ ?_
  dsimp only
  split <;> infer_instance

instance (cells : LoopCells) : Steady (advanceLoop cells) := .changeHeap fun _ ↦ ⟨rfl, rfl⟩

instance (op : Opcode) : Steady (binary op) := by
  refine .after fun b ↦ .after fun a ↦ .after fun s ↦ ?_
  dsimp only
  split <;> infer_instance

instance (start : Nat) : Steady (fillTable start) := by
  refine .after fun s ↦ .after fun values ↦ .after fun v ↦ ?_
  split
  · refine .after fun s ↦ ?_
    split <;> infer_instance
  · infer_instance

instance (i : Instruction) : Steady (operandCount i) := by
  unfold operandCount
  infer_instance

instance (m : Machine α) [Steady m] : Steady (discard m) := inferInstanceAs (Steady (Functor.map _ m))

instance (keep : Value → Bool) (x : Nat) : Steady (jumpKeeping keep x) := by
  unfold jumpKeeping
  infer_instance

theorem steady_perform (frame : Frame) (constants : Array Value) (i : Instruction) {op : Opcode}
    (hop : op ≠ .closure) : Steady (perform frame constants i op) := by
  cases op
  case closure => exact absurd rfl hop
  all_goals
    simp only [perform]
    infer_instance

instance (frame : Frame) (upvalues : Array Nat) (captures : List Capture) :
    Steady (captured frame upvalues captures) := by
  have hcell (c : Capture) : Steady (match c with
      | .cell n => frameCell frame n
      | .upvalue n => orOperand upvalues[n]?) := by
    split <;> infer_instance
  exact Steady.mapM captures

theorem length_of_mapM {β : Type} {f : α → Machine β} {as : List α} {bs : List β} {s t : State}
    (h : as.mapM f s = .ok bs t) : bs.length = as.length := by
  induction as generalizing bs s with
  | nil =>
    cases h
    rfl
  | cons a as ih =>
    rw [List.mapM_cons] at h
    obtain ⟨b, u, -, hrest⟩ := bind_eq_ok.mp h
    obtain ⟨bs', w, hbs, hdone⟩ := bind_eq_ok.mp hrest
    cases hdone
    exact congrArg Nat.succ (ih hbs)

theorem secures_makeClosure (frame : Frame) (x : Nat) (s : State) :
    s.heap.Secures (final (makeClosure frame x s)).heap := by
  have hsame : s.heap.Secures s.heap := (Heap.SameLinks.refl _).secures
  unfold makeClosure
  rw [bind_apply, get_apply]
  dsimp only
  cases s.heap.closures[frame.closure]? with
  | none => exact hsame
  | some current =>
    simp only [bind_apply, get_apply, orOperand_apply]
    cases (s.heap.protos[current.proto]?).bind fun p ↦ p.protos[x]? with
    | none => exact hsame
    | some proto =>
      dsimp only
      cases hp : s.heap.protos[proto]? with
      | none => exact hsame
      | some p =>
        simp only [bind_apply]
        have hkeeps := Steady.keeps (m := captured frame current.upvalues p.captures.toList) s
        cases hcells : captured frame current.upvalues p.captures.toList s with
        | error e t =>
          rw [hcells] at hkeeps
          exact hkeeps.secures
        | ok cells t =>
          rw [hcells] at hkeeps
          have hlength := length_of_mapM hcells
          exact hkeeps.secures.trans
            (.allocClosure ⟨p, hkeeps.protos ▸ hp, by simpa using hlength⟩)

theorem secures_perform (frame : Frame) (constants : Array Value) (i : Instruction) (op : Opcode)
    (s : State) : s.heap.Secures (final (perform frame constants i op s)).heap := by
  by_cases hop : op = .closure
  · subst hop
    have hmake := secures_makeClosure frame i.x s
    simp only [perform, bind_apply]
    cases hr : makeClosure frame i.x s with
    | error e t => rwa [hr] at hmake
    | ok v t =>
      rw [hr] at hmake
      have hpush := Steady.keeps (m := do push v; pure Demand.nothing) t
      exact hmake.trans hpush.secures
  · exact ((steady_perform frame constants i hop).keeps s).secures

end Machine

end MiniLua
