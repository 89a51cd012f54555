import FencedCode.Grammar.Source

namespace FencedCode.GrammarSource

def rust : GrammarSource where
  id := "rust"
  aliases := ["rs"]
  multilines := [
    .plain "block_comment" "/\\*" "\\*/" .comment 1,
    .plain "raw_string" "\\br#\"" "\"#" .string 2,
    .escaped "byte_string" "\\bb\"" "\"" .string 3,
    .escaped "string" "\"" "\"" .string 4]
  patterns := [
    .whole "doc_comment" "//[/!].*$" .comment 101,
    .whole "line_comment" "//.*$" .comment 100,
    .whole "attribute" "#!?\\[[^\\]]*\\]" .attr 95,
    .whole "char" "b?'(?:[^'\\\\]|\\\\.|\\\\u\\\x7b[0-9a-fA-F]+\\\x7d)'" .character 90,
    .whole "lifetime" "'\\w+" .lifetime 89,
    .whole "macro" "\\b\\w+!" .macroCall 85,
    .words "keyword"
      ["as", "async", "await", "break", "const", "continue", "crate", "dyn", "else", "enum",
       "extern", "fn", "for", "if", "impl", "in", "let", "loop", "match", "mod", "move", "mut",
       "pub", "ref", "return", "self", "Self", "static", "struct", "super", "trait", "type",
       "union", "unsafe", "use", "where", "while"]
      .keyword 80,
    .words "boolean" ["true", "false"] .constant 79,
    .words "type"
      ["bool", "char", "str", "u8", "u16", "u32", "u64", "u128", "usize", "i8", "i16", "i32",
       "i64", "i128", "isize", "f32", "f64", "String", "Vec", "Box", "Rc", "Arc", "Option",
       "Result", "Some", "None", "Ok", "Err"]
      .typeName 75,
    .captured "module" "\\b([a-z_][a-z0-9_]*)::" .moduleName 72,
    .captured "function" "\\b([a-z_][a-zA-Z0-9_]*)\\s*(?:::<[^>]*>)?\\(" .function 70,
    .whole "constant" "\\b[A-Z][A-Z0-9_]+\\b" .constant 62,
    .whole "type_name" "\\b[A-Z][a-zA-Z0-9_]*\\b" .typeName 60,
    .whole "hex" "\\b0x[0-9a-fA-F_]+\\b" .number 65,
    .whole "binary" "\\b0b[01_]+\\b" .number 65,
    .whole "octal" "\\b0o[0-7_]+\\b" .number 65,
    .whole "float" "\\b\\d[\\d_]*\\.\\d[\\d_]*(?:[eE][+-]?\\d+)?(?:f32|f64)?\\b" .number 64,
    .whole "integer"
      "\\b\\d[\\d_]*(?:u8|u16|u32|u64|u128|usize|i8|i16|i32|i64|i128|isize|f32|f64)?\\b"
      .number 63,
    .whole "operator" "[+\\-*/%&|^!<>=@?]+" .operator 40,
    .whole "punctuation" "[\x7b\x7d()\\[\\];:,.]" .punctuation 30]

end FencedCode.GrammarSource
