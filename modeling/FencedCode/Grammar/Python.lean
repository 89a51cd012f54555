import FencedCode.Grammar.Source

namespace FencedCode.GrammarSource

def python : GrammarSource where
  id := "python"
  aliases := ["py", "python3"]
  multilines := [
    .plain "triple_double" "\"\"\"" "\"\"\"" .string 1,
    .plain "triple_single" "'''" "'''" .string 2,
    .escaped "double_string" "\"" "\"" .string 3,
    .escaped "single_string" "'" "'" .string 4]
  patterns := [
    .whole "comment" "#.*$" .comment 100,
    .whole "decorator" "@[\\w.]+" .attr 95,
    .captured "string_prefix" "\\b([fFrRbBuU]\x7b1,2\x7d)[\"']" .special 92,
    .words "keyword"
      ["and", "as", "assert", "async", "await", "break", "class", "continue", "def", "del",
       "elif", "else", "except", "finally", "for", "from", "global", "if", "import", "in", "is",
       "lambda", "match", "case", "nonlocal", "not", "or", "pass", "raise", "return", "try",
       "while", "with", "yield"]
      .keyword 80,
    .words "constant" ["True", "False", "None", "NotImplemented", "Ellipsis"] .constant 79,
    .words "self" ["self", "cls"] .special 77,
    .words "builtin"
      ["abs", "all", "any", "ascii", "bin", "bool", "bytearray", "bytes", "callable", "chr",
       "classmethod", "compile", "complex", "delattr", "dict", "dir", "divmod", "enumerate",
       "eval", "exec", "filter", "float", "format", "frozenset", "getattr", "globals",
       "hasattr", "hash", "help", "hex", "id", "input", "int", "isinstance", "issubclass",
       "iter", "len", "list", "locals", "map", "max", "memoryview", "min", "next", "object",
       "oct", "open", "ord", "pow", "print", "property", "range", "repr", "reversed", "round",
       "set", "setattr", "slice", "sorted", "staticmethod", "str", "sum", "super", "tuple",
       "type", "vars", "zip"]
      .function 75,
    .captured "function" "\\b([A-Za-z_]\\w*)\\s*\\(" .function 70,
    .whole "class_name" "\\b[A-Z][a-zA-Z0-9_]*\\b" .typeName 60,
    .whole "hex" "\\b0[xX][0-9a-fA-F_]+\\b" .number 65,
    .whole "binary" "\\b0[bB][01_]+\\b" .number 65,
    .whole "octal" "\\b0[oO][0-7_]+\\b" .number 65,
    .whole "float" "\\b\\d[\\d_]*\\.\\d[\\d_]*(?:[eE][+-]?\\d+)?j?\\b" .number 64,
    .whole "integer" "\\b\\d[\\d_]*j?\\b" .number 63,
    .whole "operator" "[+\\-*/%&|^!<>=@~]+" .operator 40,
    .whole "punctuation" "[\x7b\x7d()\\[\\]:;,.]" .punctuation 30]

end FencedCode.GrammarSource
