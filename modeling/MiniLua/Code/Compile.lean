import MiniLua.Code.OfTree

namespace MiniLua

/-- The main function of a chunk: variadic, and without parameters. -/
def Emit.main (chunk : Chunk) : Emit Nat := do
  chunk.emit
  op .ret
  allocProto (← inspect Builder.toPrototype)

/-- The handle of the main prototype of source text. The heap keeps what was added to it before a
failure. -/
def compile (source : Bytes) (chunkName : String) : EStateM CompileError Heap Nat := fun heap ↦
  match parse source with
  | .error e => .error (.parse e) heap
  | .ok chunk =>
    let main := Builder.start "main chunk" [] true 0
    match Emit.main chunk ⟨heap, main, [], chunkLabel chunkName⟩ with
    | .ok proto s => .ok proto s.heap
    | .error e s => .error e s.heap

/-- The message of a compile error, after the chunk and the line. -/
def CompileError.located (e : CompileError) (chunkName : String) : String :=
  chunkLabel chunkName ++ ":" ++ toString e.line ++ ": " ++ e.message

end MiniLua
