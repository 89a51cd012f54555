import FencedCode.Grammar.Source

namespace FencedCode.GrammarSource

def javascript : GrammarSource where
  id := "javascript"
  aliases := ["js", "jsx", "mjs", "cjs", "typescript", "ts"]
  multilines := [
    .plain "block_comment" "/\\*" "\\*/" .comment 1,
    .escaped "template" "`" "`" .string 2,
    .escaped "double_string" "\"" "\"" .string 3,
    .escaped "single_string" "'" "'" .string 4]
  patterns := [
    .whole "line_comment" "//.*$" .comment 100,
    .whole "decorator" "@[\\w.]+" .attr 95,
    .words "keyword"
      ["async", "await", "break", "case", "catch", "class", "const", "continue", "debugger",
       "default", "delete", "do", "else", "export", "extends", "finally", "for", "from",
       "function", "get", "if", "import", "in", "instanceof", "let", "new", "of", "return",
       "set", "static", "super", "switch", "this", "throw", "try", "typeof", "var", "void",
       "while", "with", "yield"]
      .keyword 80,
    .words "ts_keyword"
      ["abstract", "as", "declare", "enum", "implements", "interface", "keyof", "namespace",
       "private", "protected", "public", "readonly", "satisfies", "type"]
      .keyword 79,
    .words "constant" ["true", "false", "null", "undefined", "NaN", "Infinity"] .constant 78,
    .words "type"
      ["any", "boolean", "number", "string", "symbol", "bigint", "never", "unknown", "object"]
      .typeName 75,
    .captured "function" "\\b([A-Za-z_$][\\w$]*)\\s*\\(" .function 70,
    .whole "class_name" "\\b[A-Z][a-zA-Z0-9_]*\\b" .typeName 60,
    .whole "hex" "\\b0[xX][0-9a-fA-F_]+n?\\b" .number 65,
    .whole "binary" "\\b0[bB][01_]+n?\\b" .number 65,
    .whole "float" "\\b\\d[\\d_]*\\.\\d[\\d_]*(?:[eE][+-]?\\d+)?\\b" .number 64,
    .whole "integer" "\\b\\d[\\d_]*n?\\b" .number 63,
    .whole "operator" "[+\\-*/%&|^!<>=~?:]+" .operator 40,
    .whole "punctuation" "[\x7b\x7d()\\[\\];,.]" .punctuation 30]

end FencedCode.GrammarSource
