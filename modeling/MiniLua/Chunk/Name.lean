import MiniLua.Text.Lines

namespace MiniLua

/-- How messages show a chunk: a name marked with `=` or `@` without that mark, and anything else
as the source text it is, cut to the start of its first line. -/
def chunkLabel (name : String) : String :=
  match name.toList with
  | '=' :: rest | '@' :: rest => String.ofList rest
  | text =>
    let line := Text.firstLine text
    let shown := line.take 45
    let more := if shown.length < text.length then "..." else ""
    "[string \"" ++ String.ofList shown ++ more ++ "\"]"

end MiniLua
