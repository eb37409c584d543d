/-
  TsProject.Config.Options — the compiler options a config may set.

  Every option has a name and a type. Paths are options of their own types, since
  they are read against the directory of the config that sets them. The order of the
  table is the order in which options are checked and shown.

  (1) Types. (2) Choices. (3) The table. (4) Looking up.
-/

import TsProject.Text.Case
import TsProject.Value

namespace TsProject.Config

/-! ## (1) Types -/

inductive OptionType where
  | flag
  | number
  | string
  | path
  /-- One of some words, in any case. -/
  | choice (words : List String)
  | strings
  | paths
  /-- A list of library names, in any case. -/
  | libraries
  /-- From names to lists of strings. -/
  | mapping
  /-- A list of objects. -/
  | objects
  deriving DecidableEq

structure OptionSpec where
  name : String
  type : OptionType
  deriving DecidableEq

def OptionSpec.key (o : OptionSpec) : Text := Text.of o.name

/-! ## (2) Choices -/

def targets : List String :=
  ["es3", "es5", "es6", "es2015", "es2016", "es2017", "es2018", "es2019", "es2020", "es2021", "es2022", "es2023",
   "es2024", "esnext"]

def moduleKinds : List String :=
  ["none", "commonjs", "amd", "umd", "system", "es6", "es2015", "es2020", "es2022", "esnext", "node16", "node18",
   "node20", "nodenext", "preserve"]

def moduleResolutions : List String := ["classic", "node", "node10", "node16", "nodenext", "bundler"]

def jsxModes : List String := ["preserve", "react", "react-native", "react-jsx", "react-jsxdev"]

def newLines : List String := ["crlf", "lf"]

def moduleDetections : List String := ["auto", "legacy", "force"]

def unusedImports : List String := ["remove", "preserve", "error"]

/-! ## (3) The table -/

def projectOptions : List OptionSpec :=
  [⟨"incremental", .flag⟩, ⟨"composite", .flag⟩, ⟨"tsBuildInfoFile", .path⟩,
   ⟨"disableSourceOfProjectReferenceRedirect", .flag⟩, ⟨"disableSolutionSearching", .flag⟩,
   ⟨"disableReferencedProjectLoad", .flag⟩]

def languageOptions : List OptionSpec :=
  [⟨"target", .choice targets⟩, ⟨"lib", .libraries⟩, ⟨"jsx", .choice jsxModes⟩, ⟨"jsxFactory", .string⟩,
   ⟨"jsxFragmentFactory", .string⟩, ⟨"jsxImportSource", .string⟩, ⟨"reactNamespace", .string⟩, ⟨"noLib", .flag⟩,
   ⟨"experimentalDecorators", .flag⟩, ⟨"emitDecoratorMetadata", .flag⟩, ⟨"useDefineForClassFields", .flag⟩,
   ⟨"moduleDetection", .choice moduleDetections⟩, ⟨"libReplacement", .flag⟩]

def moduleOptions : List OptionSpec :=
  [⟨"module", .choice moduleKinds⟩, ⟨"moduleResolution", .choice moduleResolutions⟩, ⟨"baseUrl", .path⟩,
   ⟨"paths", .mapping⟩, ⟨"rootDir", .path⟩, ⟨"rootDirs", .paths⟩, ⟨"typeRoots", .paths⟩, ⟨"types", .strings⟩,
   ⟨"moduleSuffixes", .strings⟩, ⟨"customConditions", .strings⟩, ⟨"resolveJsonModule", .flag⟩,
   ⟨"resolvePackageJsonExports", .flag⟩, ⟨"resolvePackageJsonImports", .flag⟩, ⟨"allowArbitraryExtensions", .flag⟩,
   ⟨"allowImportingTsExtensions", .flag⟩, ⟨"rewriteRelativeImportExtensions", .flag⟩, ⟨"allowUmdGlobalAccess", .flag⟩,
   ⟨"noResolve", .flag⟩, ⟨"noUncheckedSideEffectImports", .flag⟩]

def javaScriptOptions : List OptionSpec := [⟨"allowJs", .flag⟩, ⟨"checkJs", .flag⟩, ⟨"maxNodeModuleJsDepth", .number⟩]

def emitOptions : List OptionSpec :=
  [⟨"declaration", .flag⟩, ⟨"declarationMap", .flag⟩, ⟨"declarationDir", .path⟩, ⟨"emitDeclarationOnly", .flag⟩,
   ⟨"sourceMap", .flag⟩, ⟨"inlineSourceMap", .flag⟩, ⟨"inlineSources", .flag⟩, ⟨"sourceRoot", .string⟩,
   ⟨"mapRoot", .path⟩, ⟨"outDir", .path⟩, ⟨"outFile", .path⟩, ⟨"removeComments", .flag⟩, ⟨"noEmit", .flag⟩,
   ⟨"noEmitOnError", .flag⟩, ⟨"noEmitHelpers", .flag⟩, ⟨"importHelpers", .flag⟩, ⟨"downlevelIteration", .flag⟩,
   ⟨"preserveConstEnums", .flag⟩, ⟨"stripInternal", .flag⟩, ⟨"emitBOM", .flag⟩, ⟨"newLine", .choice newLines⟩,
   ⟨"importsNotUsedAsValues", .choice unusedImports⟩, ⟨"preserveValueImports", .flag⟩]

def interopOptions : List OptionSpec :=
  [⟨"isolatedModules", .flag⟩, ⟨"isolatedDeclarations", .flag⟩, ⟨"verbatimModuleSyntax", .flag⟩,
   ⟨"erasableSyntaxOnly", .flag⟩, ⟨"allowSyntheticDefaultImports", .flag⟩, ⟨"esModuleInterop", .flag⟩,
   ⟨"preserveSymlinks", .flag⟩, ⟨"forceConsistentCasingInFileNames", .flag⟩]

def typeCheckingOptions : List OptionSpec :=
  [⟨"strict", .flag⟩, ⟨"noImplicitAny", .flag⟩, ⟨"strictNullChecks", .flag⟩, ⟨"strictFunctionTypes", .flag⟩,
   ⟨"strictBindCallApply", .flag⟩, ⟨"strictBuiltinIteratorReturn", .flag⟩, ⟨"strictPropertyInitialization", .flag⟩,
   ⟨"noImplicitThis", .flag⟩, ⟨"useUnknownInCatchVariables", .flag⟩, ⟨"alwaysStrict", .flag⟩,
   ⟨"noUnusedLocals", .flag⟩, ⟨"noUnusedParameters", .flag⟩, ⟨"exactOptionalPropertyTypes", .flag⟩,
   ⟨"noImplicitReturns", .flag⟩, ⟨"noFallthroughCasesInSwitch", .flag⟩, ⟨"noUncheckedIndexedAccess", .flag⟩,
   ⟨"noImplicitOverride", .flag⟩, ⟨"noPropertyAccessFromIndexSignature", .flag⟩, ⟨"allowUnusedLabels", .flag⟩,
   ⟨"allowUnreachableCode", .flag⟩, ⟨"noCheck", .flag⟩]

def completenessOptions : List OptionSpec := [⟨"skipLibCheck", .flag⟩, ⟨"skipDefaultLibCheck", .flag⟩]

def legacyOptions : List OptionSpec :=
  [⟨"charset", .string⟩, ⟨"ignoreDeprecations", .string⟩, ⟨"keyofStringsOnly", .flag⟩, ⟨"noImplicitUseStrict", .flag⟩,
   ⟨"noStrictGenericChecks", .flag⟩, ⟨"out", .path⟩, ⟨"suppressExcessPropertyErrors", .flag⟩,
   ⟨"suppressImplicitAnyIndexErrors", .flag⟩]

def outputOptions : List OptionSpec :=
  [⟨"locale", .string⟩, ⟨"pretty", .flag⟩, ⟨"noErrorTruncation", .flag⟩, ⟨"preserveWatchOutput", .flag⟩,
   ⟨"diagnostics", .flag⟩, ⟨"extendedDiagnostics", .flag⟩, ⟨"explainFiles", .flag⟩, ⟨"listFiles", .flag⟩,
   ⟨"listEmittedFiles", .flag⟩, ⟨"traceResolution", .flag⟩, ⟨"generateCpuProfile", .path⟩, ⟨"generateTrace", .path⟩,
   ⟨"assumeChangesOnlyAffectDirectDependencies", .flag⟩]

def editorOptions : List OptionSpec := [⟨"disableSizeLimit", .flag⟩, ⟨"plugins", .objects⟩]

def optionSpecs : List OptionSpec :=
  projectOptions ++ languageOptions ++ moduleOptions ++ javaScriptOptions ++ emitOptions ++ interopOptions
    ++ typeCheckingOptions ++ completenessOptions ++ legacyOptions ++ outputOptions ++ editorOptions

/-- Accepted among the options of a config and then ignored: where the config was loaded from. -/
def configPathOption : OptionSpec := ⟨"configFilePath", .string⟩

/-! ## (4) Looking up -/

def optionNames : List Text := optionSpecs.map OptionSpec.key

def optionSpec? (name : Text) : Option OptionSpec := (optionSpecs ++ [configPathOption]).find? (·.key == name)

/-- The words an option may be set to; none for an option of another type. -/
def choicesOf (name : Text) : List Text :=
  match (optionSpec? name).map OptionSpec.type with
  | some (.choice words) => words.map Text.of
  | _ => []

/-- A name in snake case: a capital behind another character that is none starts a word. -/
def snakeCaseAfter (afterCapital : Bool) : Text → Text
  | [] => []
  | c :: s =>
    let capital := CodePoint.isAsciiUpper c
    (if capital && !afterCapital then [CodePoint.underscore] else []) ++ Text.lowerPoint c :: snakeCaseAfter capital s

def snakeCase (name : Text) : Text := snakeCaseAfter true name

end TsProject.Config
