import FeatureRules.ModelFolder.Generate
import FeatureRules.Proofs.Graph.Levels
import FeatureRules.Proofs.Declarations.Names
import FeatureRules.Proofs.Compilation
import FeatureRules.Proofs.Levels
import FeatureRules.Proofs.FiringOrder
import FeatureRules.Proofs.Holders
import FeatureRules.Proofs.CyclicReference
import FeatureRules.Proofs.DeclarationOrder
import FeatureRules.Proofs.Reference.Reading
import FeatureRules.Proofs.Reference.Split
import FeatureRules.Proofs.Reference.Locality
import FeatureRules.Proofs.Blocks
import FeatureRules.Proofs.BlockLines
import FeatureRules.Proofs.Declarations.Building
import FeatureRules.Proofs.Reference.Joining
import FeatureRules.Proofs.GroupWiring
import FeatureRules.Proofs.RuleSource
import FeatureRules.Proofs.ParameterInputs
import FeatureRules.Proofs.ModelFolder.Generation
import FeatureRules.Proofs.Lowering
import FeatureRules.Proofs.AddedRule
import FeatureRules.Proofs.Synonyms
import FeatureRules.Proofs.UnknownNames
import FeatureRules.Proofs.PartReferences
import FeatureRules.Proofs.ModelFolder.Loading
import FeatureRules.Proofs.Declarations.Features
import FeatureRules.Proofs.SliceWiring
import FeatureRules.Proofs.Defaults
import FeatureRules.Proofs.Template
import FeatureRules.Proofs.StringLiterals
import FeatureRules.Proofs.StringDefaults
import FeatureRules.Proofs.MadeFeatures
import FeatureRules.Proofs.Saturation
import FeatureRules.Proofs.Sigils
import FeatureRules.Proofs.Entries
import FeatureRules.Proofs.Records
import FeatureRules.Proofs.Reencoding
import FeatureRules.Proofs.AccessCalls
import FeatureRules.Proofs.Graph.Walk
import FeatureRules.Proofs.CycleWalk
import FeatureRules.Proofs.Leveling
