/-!
# Quoted strings
-/

namespace SyntaxHue

namespace Language

/-- A string in double or single quotes on one line. A backslash takes away the meaning of the
    character or line end that follows it. -/
def quotedString : String :=
  "\"(?:\\\\(?:\\r\\n|[\\s\\S])|[^\"\\\\\\r\\n])*\"|'(?:\\\\(?:\\r\\n|[\\s\\S])|[^'\\\\\\r\\n])*'"

end Language

end SyntaxHue
