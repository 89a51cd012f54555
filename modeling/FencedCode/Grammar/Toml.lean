import FencedCode.Grammar.Source

namespace FencedCode.GrammarSource

def toml : GrammarSource where
  id := "toml"
  aliases := []
  multilines := [
    .plain "multiline_basic" "\"\"\"" "\"\"\"" .string 1,
    .plain "multiline_literal" "'''" "'''" .string 2,
    .escaped "basic_string" "\"" "\"" .string 3,
    .plain "literal_string" "'" "'" .string 4]
  patterns := [
    .whole "comment" "#.*$" .comment 100,
    .whole "table" "^\\s*\\[\\[?[^\\]]+\\]\\]?" .keyword 95,
    .captured "key" "^\\s*([\\w\\-\\.]+)\\s*=" .typeName 90,
    .captured "inline_key" "\\b([A-Za-z_][\\w\\-]*)\\s*=" .typeName 89,
    .words "boolean" ["true", "false"] .constant 80,
    .whole "datetime"
      ("\\d\x7b4\x7d-\\d\x7b2\x7d-\\d\x7b2\x7d(?:[T ]" ++
        "\\d\x7b2\x7d:\\d\x7b2\x7d:\\d\x7b2\x7d(?:\\.\\d+)?(?:Z|[+-]\\d\x7b2\x7d:\\d\x7b2\x7d)?)?")
      .number 75,
    .whole "time" "\\d\x7b2\x7d:\\d\x7b2\x7d:\\d\x7b2\x7d(?:\\.\\d+)?" .number 74,
    .whole "hex" "\\b0x[0-9a-fA-F_]+\\b" .number 65,
    .whole "binary" "\\b0b[01_]+\\b" .number 65,
    .whole "octal" "\\b0o[0-7_]+\\b" .number 65,
    .whole "float"
      "[+-]?(?:\\d[\\d_]*\\.\\d[\\d_]*(?:[eE][+-]?\\d+)?|\\binf\\b|\\bnan\\b)"
      .number 64,
    .whole "integer" "[+-]?\\b\\d[\\d_]*\\b" .number 63,
    .whole "operator" "=" .operator 40,
    .whole "punctuation" "[\x7b\x7d\\[\\],.]" .punctuation 30]

end FencedCode.GrammarSource
