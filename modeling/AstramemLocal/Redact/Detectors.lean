/-
The pattern detectors of the redaction (`src/redact/detectors.ts`): for each the pattern, the group that holds the
secret, and the filter on its value. Every class is of ASCII characters or of quotes, which have no case, and no group
of these patterns stands inside a repetition.
-/
import AstramemLocal.Core.Regex

namespace AstramemLocal.Redact

open Core Core.Re

/-- what a placeholder says was there -/
inductive SecretType where
  | pemPrivateKey | awsAccessKey | githubToken | azureKey | gcpApiKey | slackToken | genericCredential
  | genericCredentialQuoted | stripeKey | anthropicKey | openaiKey | jwt | connectionString | custom | highEntropy
  | numericSecret
deriving DecidableEq, Repr

def SecretType.name : SecretType → String
  | pemPrivateKey => "pem_private_key"
  | awsAccessKey => "aws_access_key"
  | githubToken => "github_token"
  | azureKey => "azure_key"
  | gcpApiKey => "gcp_api_key"
  | slackToken => "slack_token"
  | genericCredential => "generic_credential"
  | genericCredentialQuoted => "generic_credential_quoted"
  | stripeKey => "stripe_key"
  | anthropicKey => "anthropic_key"
  | openaiKey => "openai_key"
  | jwt => "jwt"
  | connectionString => "connection_string"
  | custom => "custom"
  | highEntropy => "high_entropy"
  | numericSecret => "numeric_secret"

structure PatternDetector where
  type : SecretType
  regex : RegExp
  /-- the group to redact instead of the whole match -/
  valueGroup : Option ℕ
  valueFilter : Option (JsString → Bool)

/-- a pattern without group and filter -/
def wholeMatch (type : SecretType) (r : Re) : PatternDetector := ⟨type, r.compile false, none, none⟩

/-- a labelled pattern, any case, whose first group is the value -/
def labelled (type : SecretType) (r : Re) (valueFilter : Option (JsString → Bool)) : PatternDetector :=
  ⟨type, r.compile true, some 1, valueFilter⟩

def pemLabel : Re := star (plus (cls fun u => upper u || digit u) ++ lit " ") ++ lit "PRIVATE KEY-----"

def pemDetector : PatternDetector :=
  wholeMatch .pemPrivateKey
    (lit "-----BEGIN " ++ pemLabel ++ .rep false 0 none (cls fun _ => true) ++ lit "-----END " ++ pemLabel)

/-! ## Shared fragments -/

def apiKey : Re := lit "api" ++ opt (cls (listed "_-")) ++ lit "key"

def genericTrailingKeywords : Re :=
  apiKey ||| lit "secret" ||| lit "token" ||| lit "password" ||| lit "passwd" ||| lit "pwd"

def genericCompoundLabel : Re :=
  (lit "secret" ||| lit "password" ||| lit "passwd" ||| lit "pwd") ++ plus (lit "_" ++ plus (cls alnum))

/-- straight and curly quotes -/
def isQuote (u : ℕ) : Bool := u ∈ [0x22, 0x27, 0x2018, 0x2019, 0x201c, 0x201d]

def anyQuoteChar : Re := cls isQuote

/-- a quote family: what opens a value, what closes it, what it may not hold -/
structure QuoteFamily where
  opens : List ℕ
  closes : List ℕ
  exclude : List ℕ

def doubleQuotes : QuoteFamily := ⟨[0x22, 0x201c], [0x22, 0x201d], [0x22, 0x201c, 0x201d]⟩

def singleQuotes : QuoteFamily := ⟨[0x27, 0x2018], [0x27, 0x2019], [0x27, 0x2018, 0x2019]⟩

def quotedLabelSep : Re :=
  anyQuoteChar ++ star space ++ (lit "=>" ||| lit ":" ||| lit "=" ++ .notAhead (lit ">")) ++ star space

def allDigits : RegExp := (Re.atStart ++ plus (cls digit) ++ Re.atEnd).compile false

def booleanLiteral : RegExp := (Re.atStart ++ (lit "true" ||| lit "false") ++ Re.atEnd).compile true

def rejectNumericOrBooleanLiteral (value : JsString) : Bool := !allDigits.test value && !booleanLiteral.test value

/-- `label = value` and `label: value` -/
def unquotedCredential (label : Re) : Re :=
  .notBehind letter ++ label ++ star space ++ cls (listed ":=") ++ star space ++ .group 1 (plus nonSpace)

/-- a quoted label and a value between quotes of one family -/
def quotedValue (label : Re) (q : QuoteFamily) : Re :=
  .notBehind letter ++ label ++ quotedLabelSep ++ cls (· ∈ q.opens) ++ .group 1 (star (notCls (· ∈ q.exclude))) ++
    cls (· ∈ q.closes)

/-- a quoted label and a bare value -/
def bareValue (label : Re) : Re :=
  .notBehind letter ++ label ++ quotedLabelSep ++ .notAhead anyQuoteChar ++ .group 1 (plus nonSpace)

/-! ## The list -/

def githubToken : Re :=
  .wordBoundary ++ (lit "ghp" ||| lit "gho" ||| lit "ghu" ||| lit "ghs" ||| lit "ghr") ++ lit "_" ++
      between 20 255 (cls alnum) ++ .wordBoundary |||
    .wordBoundary ++ lit "github_pat_" ++ between 20 255 (cls fun u => alnum u || u = 0x5f) ++ .wordBoundary

/-- `-`, `_` and the alphanumerics -/
def urlSafe (u : ℕ) : Bool := alnum u || listed "_-" u

def jwtPart : Re := atLeast 10 (cls urlSafe)

def connectionUserinfo : Re :=
  .group 1 (plus (notCls fun u => listed "/:@" u || JsString.isSpace u) ++ lit ":" ++
    plus (notCls fun u => listed "/@" u || JsString.isSpace u))

/-- in the order they run in: on a tie of starts the earlier one wins -/
def patternDetectors : List PatternDetector := [
  wholeMatch .awsAccessKey (.wordBoundary ++ lit "AKIA" ++ exactly 16 (cls fun u => digit u || upper u) ++
    .wordBoundary),
  wholeMatch .githubToken githubToken,
  labelled .azureKey (.wordBoundary ++ lit "AccountKey" ++ star space ++ lit "=" ++ star space ++
    .group 1 (plus nonSpace)) none,
  labelled .azureKey (cls (listed "?&") ++ lit "sig=" ++
    .group 1 (atLeast 10 (cls fun u => alnum u || listed "%+/=" u))) none,
  wholeMatch .azureKey (.wordBoundary ++ exactly 86 (cls fun u => alnum u || listed "+/" u) ++ lit "=="),
  wholeMatch .gcpApiKey (.wordBoundary ++ lit "AIza" ++ exactly 35 (cls urlSafe) ++ .wordBoundary),
  wholeMatch .slackToken (.wordBoundary ++ lit "xox" ++ cls (listed "baprs") ++ lit "-" ++
    between 10 72 (cls fun u => alnum u || listed "-" u) ++ .wordBoundary),
  labelled .genericCredential (unquotedCredential genericTrailingKeywords) none,
  labelled .genericCredential (unquotedCredential genericCompoundLabel) (some rejectNumericOrBooleanLiteral),
  labelled .genericCredentialQuoted (quotedValue genericTrailingKeywords doubleQuotes) none,
  labelled .genericCredentialQuoted (quotedValue genericTrailingKeywords singleQuotes) none,
  labelled .genericCredentialQuoted (bareValue genericTrailingKeywords) none,
  labelled .genericCredentialQuoted (quotedValue genericCompoundLabel doubleQuotes)
    (some rejectNumericOrBooleanLiteral),
  labelled .genericCredentialQuoted (quotedValue genericCompoundLabel singleQuotes)
    (some rejectNumericOrBooleanLiteral),
  labelled .genericCredentialQuoted (bareValue genericCompoundLabel) (some rejectNumericOrBooleanLiteral),
  wholeMatch .stripeKey (.wordBoundary ++ (lit "sk" ||| lit "pk" ||| lit "rk") ++ lit "_live_" ++
    atLeast 24 (cls alnum) ++ .wordBoundary),
  wholeMatch .anthropicKey (.wordBoundary ++ lit "sk-ant-" ++ atLeast 20 (cls urlSafe) ++ .wordBoundary),
  wholeMatch .openaiKey (.wordBoundary ++ lit "sk-" ++ .notAhead (lit "ant-") ++ atLeast 20 (cls urlSafe) ++
    .wordBoundary),
  wholeMatch .jwt (.wordBoundary ++ lit "ey" ++ jwtPart ++ lit "." ++ jwtPart ++ lit "." ++ jwtPart ++
    .wordBoundary),
  ⟨.connectionString, (.wordBoundary ++ cls letter ++ star (cls fun u => alnum u || listed "+.-" u) ++ lit "://" ++
    connectionUserinfo ++ lit "@").compile false, some 1, none⟩]

/-- a pattern of the configuration -/
def customDetector (re : RegExp) : PatternDetector := ⟨.custom, re, none, none⟩

end AstramemLocal.Redact
