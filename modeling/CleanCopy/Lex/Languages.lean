import CleanCopy.Lex.Lexicon

namespace CleanCopy.Lexicon

def cSharp : Lexicon where
  lineComment := some ['/', '/']
  docLineComment := some ['/', '/', '/']
  blockComment := some (['/', '*'], ['*', '/'])
  docBlockOpener := some ['/', '*', '*']
  literals := [
    .spanning ['\"', '\"', '\"'] ['\"', '\"', '\"'] .never,
    .spanning ['@', '$', '\"'] ['\"'] .doubled,
    .spanning ['$', '@', '\"'] ['\"'] .doubled,
    .spanning ['@', '\"'] ['\"'] .doubled,
    .quote ['\"'],
    .quote ['\'']]

def typeScript : Lexicon where
  lineComment := some ['/', '/']
  docLineComment := none
  blockComment := some (['/', '*'], ['*', '/'])
  docBlockOpener := some ['/', '*', '*']
  literals := [.spanning ['\x60'] ['\x60'] .backslash, .quote ['\"'], .quote ['\'']]

def python : Lexicon where
  lineComment := some ['#']
  docLineComment := none
  blockComment := none
  docBlockOpener := none
  literals := [
    .spanning ['\"', '\"', '\"'] ['\"', '\"', '\"'] .backslash,
    .spanning ['\'', '\'', '\''] ['\'', '\'', '\''] .backslash,
    .quote ['\"'],
    .quote ['\'']]

end CleanCopy.Lexicon
