namespace MiniLua

/-- What makes bytes no well-formed binary chunk. -/
inductive FormatFault
  | truncated
  | version (found : UInt8)
  | nameNotText
  | arity (arity cells : Nat)
  | constantTag (tag : UInt8)
  | opcode (op : UInt8)
  | lineCount (lines code : Nat)
  | captureTag (tag : UInt8)

/-- What makes a binary chunk too large to be taken. -/
inductive SizeFault
  | length (what : String) (limit length : Nat)
  | count (what : String) (count : Nat)
  | nesting

/-- Why a chunk cannot be loaded. -/
inductive LoadError
  | notFound (name : String)
  | unreadable (name reason : String)
  /-- Source text that does not compile, with the message of the compiler. -/
  | source (message : String)
  | format (fault : FormatFault)
  | size (fault : SizeFault)
  /-- A reader function that failed, with its message. -/
  | reader (message : String)
  | noCompiler

def FormatFault.message : FormatFault → String
  | truncated => "truncated chunk"
  | version found => "version mismatch (expected 1, found " ++ toString found.toNat ++ ")"
  | nameNotText => "invalid UTF-8 in function name"
  | arity n cells =>
    "arity " ++ toString n ++ " exceeds cell count " ++ toString cells
  | constantTag tag => "unknown constant tag: " ++ toString tag.toNat
  | opcode op => "unknown opcode " ++ toString op.toNat
  | lineCount lines code =>
    "line info covers " ++ toString lines ++ " of " ++ toString code ++ " instructions"
  | captureTag tag => "unknown upvalue kind: " ++ toString tag.toNat

def SizeFault.message : SizeFault → String
  | length what limit n =>
    what ++ " length exceeds limit of " ++ toString limit ++ ": " ++ toString n
  | count what n => what ++ " count too large: " ++ toString n
  | nesting => "prototypes nested too deeply"

def LoadError.message : LoadError → String
  | notFound name => "cannot open " ++ name
  | unreadable name reason => "cannot read " ++ name ++ ": " ++ reason
  | source message => message
  | format fault => "bad binary chunk: " ++ fault.message
  | size fault => "binary chunk rejected: " ++ fault.message
  | reader message => message
  | noCompiler => "no source compiler installed; only binary chunks can be loaded"

end MiniLua
