import FencedCode.Grammar.Source

namespace FencedCode.GrammarSource

def c : GrammarSource where
  id := "c"
  aliases := ["h", "cpp", "c++", "cc", "hpp"]
  multilines := [
    .plain "block_comment" "/\\*" "\\*/" .comment 1,
    .escaped "string" "\"" "\"" .string 2]
  patterns := [
    .whole "line_comment" "//.*$" .comment 100,
    .whole "preprocessor" "^\\s*#\\s*\\w+" .preprocessor 95,
    .whole "header" "<[\\w./+-]+\\.h(?:pp)?>" .string 94,
    .whole "char" "'(?:[^'\\\\]|\\\\.)'" .character 90,
    .words "keyword"
      ["auto", "break", "case", "char", "const", "continue", "default", "do", "double", "else",
       "enum", "extern", "float", "for", "goto", "if", "inline", "int", "long", "register",
       "restrict", "return", "short", "signed", "sizeof", "static", "struct", "switch",
       "typedef", "union", "unsigned", "void", "volatile", "while", "_Alignas", "_Alignof",
       "_Atomic", "_Bool", "_Complex", "_Generic", "_Imaginary", "_Noreturn", "_Static_assert",
       "_Thread_local"]
      .keyword 80,
    .words "cpp_keyword"
      ["alignas", "alignof", "and", "and_eq", "asm", "bitand", "bitor", "bool", "catch",
       "class", "compl", "concept", "consteval", "constexpr", "constinit", "const_cast",
       "co_await", "co_return", "co_yield", "decltype", "delete", "dynamic_cast", "explicit",
       "export", "friend", "mutable", "namespace", "new", "noexcept", "not", "not_eq",
       "operator", "or", "or_eq", "private", "protected", "public", "reinterpret_cast",
       "requires", "static_assert", "static_cast", "template", "this", "thread_local", "throw",
       "try", "typeid", "typename", "using", "virtual", "xor", "xor_eq"]
      .keyword 79,
    .words "constant" ["true", "false", "nullptr", "NULL", "EOF"] .constant 78,
    .words "type"
      ["size_t", "ssize_t", "ptrdiff_t", "intptr_t", "uintptr_t", "int8_t", "int16_t",
       "int32_t", "int64_t", "uint8_t", "uint16_t", "uint32_t", "uint64_t", "FILE"]
      .typeName 75,
    .captured "namespace" "\\b([A-Za-z_]\\w*)::" .moduleName 72,
    .captured "function" "\\b([A-Za-z_]\\w*)\\s*\\(" .function 70,
    .whole "macro_constant" "\\b[A-Z][A-Z0-9_]+\\b" .constant 62,
    .whole "hex" "\\b0[xX][0-9a-fA-F]+[uUlL]*\\b" .number 65,
    .whole "float" "\\b\\d+\\.\\d*(?:[eE][+-]?\\d+)?[fFlL]?" .number 64,
    .whole "float2" "\\.\\d+(?:[eE][+-]?\\d+)?[fFlL]?\\b" .number 64,
    .whole "integer" "\\b\\d+[uUlL]*\\b" .number 63,
    .whole "operator" "[+\\-*/%&|^!<>=~?:]+" .operator 40,
    .whole "punctuation" "[\x7b\x7d()\\[\\];,.]" .punctuation 30]

end FencedCode.GrammarSource
