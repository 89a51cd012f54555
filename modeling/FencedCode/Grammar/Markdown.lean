import FencedCode.Grammar.Source

namespace FencedCode.GrammarSource

def markdown : GrammarSource where
  id := "markdown"
  aliases := ["md"]
  multilines := [
    .plain "code_block" "^\\s*(?:```|~~~)" "^\\s*(?:```|~~~)" .string 1]
  patterns := [
    .whole "header" "^#\x7b1,6\x7d\\s+.*$" .keyword 100,
    .whole "bold" "\\*\\*[^*]+\\*\\*" .typeName 90,
    .whole "bold2" "__[^_]+__" .typeName 90,
    .whole "inline_code" "`[^`]+`" .string 88,
    .whole "italic" "\\*[^*\\s][^*]*\\*" .special 85,
    .whole "italic2" "\\b_[^_]+_\\b" .special 85,
    .whole "image" "!\\[[^\\]]*\\]\\([^)]+\\)" .macroCall 81,
    .whole "link" "\\[[^\\]]+\\]\\([^)]+\\)" .function 80,
    .whole "ref_link" "\\[[^\\]]+\\]\\[[^\\]]*\\]" .function 79,
    .whole "blockquote" "^>\\s+.*$" .comment 75,
    .whole "hr" "^(?:---+|\\*\\*\\*+|___+)\\s*$" .operator 70,
    .whole "list" "^\\s*[-*+]\\s" .operator 65,
    .whole "numbered_list" "^\\s*\\d+\\.\\s" .operator 65,
    .whole "strikethrough" "~~[^~]+~~" .comment 60]

end FencedCode.GrammarSource
