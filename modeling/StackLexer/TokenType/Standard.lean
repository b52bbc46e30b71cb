import StackLexer.TokenType

/-!
# Standard token types

The types every highlighter knows, each with its short name. A type outside the table takes the
short name of its nearest ancestor inside it, followed by `-` and the segments below that ancestor
(`Keyword.Constant.Extra` is `kc-Extra`). The root is in the table, so there always is such an
ancestor.
-/

namespace StackLexer.TokenType

/-- Path and short name of the standard types. -/
def standardNames : List (String × String) :=
  [("", ""), ("Text", ""), ("Text.Whitespace", "w"), ("Escape", "esc"), ("Error", "err"),
    ("Other", "x"),
    ("Keyword", "k"), ("Keyword.Constant", "kc"), ("Keyword.Declaration", "kd"),
    ("Keyword.Namespace", "kn"), ("Keyword.Pseudo", "kp"), ("Keyword.Reserved", "kr"),
    ("Keyword.Type", "kt"),
    ("Name", "n"), ("Name.Attribute", "na"), ("Name.Builtin", "nb"),
    ("Name.Builtin.Pseudo", "bp"), ("Name.Class", "nc"), ("Name.Constant", "no"),
    ("Name.Decorator", "nd"), ("Name.Entity", "ni"), ("Name.Exception", "ne"),
    ("Name.Function", "nf"), ("Name.Function.Magic", "fm"), ("Name.Property", "py"),
    ("Name.Label", "nl"), ("Name.Namespace", "nn"), ("Name.Other", "nx"), ("Name.Tag", "nt"),
    ("Name.Variable", "nv"), ("Name.Variable.Class", "vc"), ("Name.Variable.Global", "vg"),
    ("Name.Variable.Instance", "vi"), ("Name.Variable.Magic", "vm"),
    ("Literal", "l"), ("Literal.Date", "ld"),
    ("Literal.String", "s"), ("Literal.String.Affix", "sa"), ("Literal.String.Backtick", "sb"),
    ("Literal.String.Char", "sc"), ("Literal.String.Delimiter", "dl"),
    ("Literal.String.Doc", "sd"), ("Literal.String.Double", "s2"),
    ("Literal.String.Escape", "se"), ("Literal.String.Heredoc", "sh"),
    ("Literal.String.Interpol", "si"), ("Literal.String.Other", "sx"),
    ("Literal.String.Regex", "sr"), ("Literal.String.Single", "s1"),
    ("Literal.String.Symbol", "ss"),
    ("Literal.Number", "m"), ("Literal.Number.Bin", "mb"), ("Literal.Number.Float", "mf"),
    ("Literal.Number.Hex", "mh"), ("Literal.Number.Integer", "mi"),
    ("Literal.Number.Integer.Long", "il"), ("Literal.Number.Oct", "mo"),
    ("Operator", "o"), ("Operator.Word", "ow"),
    ("Punctuation", "p"), ("Punctuation.Marker", "pm"),
    ("Comment", "c"), ("Comment.Hashbang", "ch"), ("Comment.Multiline", "cm"),
    ("Comment.Preproc", "cp"), ("Comment.PreprocFile", "cpf"), ("Comment.Single", "c1"),
    ("Comment.Special", "cs"),
    ("Generic", "g"), ("Generic.Deleted", "gd"), ("Generic.Emph", "ge"),
    ("Generic.Error", "gr"), ("Generic.Heading", "gh"), ("Generic.Inserted", "gi"),
    ("Generic.Output", "go"), ("Generic.Prompt", "gp"), ("Generic.Strong", "gs"),
    ("Generic.Subheading", "gu"), ("Generic.Traceback", "gt")]

/-- The standard types with their short names, in table order. -/
def standard : List (TokenType × Bytes) :=
  standardNames.map fun (dotted, short) => (intern (bytes dotted), bytes short)

/-- The short name of the standard type with a path. -/
def standardNameAt? (path : Bytes) : Option Bytes :=
  (standard.find? fun entry => entry.1.path == path).map (·.2)

/-- The short name of a type that is in the table. -/
def standardName? (t : TokenType) : Option Bytes := standardNameAt? t.path

/-- Climb from the segments in `up` (deepest first) to the nearest standard type; `below` is what
the segments left behind contribute. -/
def climb (below : Bytes) : List Bytes → Bytes
  | [] => (standardName? root).getD [] ++ below
  | segment :: up =>
    match standardName? ⟨(segment :: up).reverse⟩ with
    | some short => short ++ below
    | none => climb (45 :: segment ++ below) up

/-- The short name of any type: that of its nearest standard ancestor, then `-` and each remaining
segment. -/
def shortName (t : TokenType) : Bytes := climb [] t.segments.reverse

end StackLexer.TokenType
