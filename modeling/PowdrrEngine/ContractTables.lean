import PowdrrEngine.LibDict

/-! Table descriptions: the name and tags of a table and the configuration of each protocol surface
it is served on. The metadata service stores a description as it came and hands it out again. -/

namespace PowdrrEngine

structure ServingAggregateMeasure where
  function : String
  field : Option String
  measureAlias : Option String
  deriving DecidableEq

structure ServingAggregateSpec where
  groupBy : List String
  measures : List ServingAggregateMeasure
  deriving DecidableEq

structure ServingPattern where
  name : String
  eqFields : List String
  rangeField : Option String
  orderField : Option String
  descending : Bool
  maxLimit : Option Nat
  projection : Option (List String)
  aggregate : Option ServingAggregateSpec
  deriving DecidableEq

structure ServingTableConfig where
  patterns : List ServingPattern
  deriving DecidableEq

structure DynamoDbLocalSecondaryIndexConfig where
  name : String
  sortKey : String
  deriving DecidableEq

structure DynamoDbGlobalSecondaryIndexConfig where
  name : String
  partitionKey : String
  sortKey : Option String
  deriving DecidableEq

structure DynamoDbTableConfig where
  partitionKey : String
  sortKey : Option String
  localSecondaryIndexes : List DynamoDbLocalSecondaryIndexConfig
  globalSecondaryIndexes : List DynamoDbGlobalSecondaryIndexConfig
  deriving DecidableEq

structure MongoDbTableConfig where
  enabled : Bool
  database : String
  collection : String
  idField : String
  deriving DecidableEq

structure RedisTableConfig where
  enabled : Bool
  database : Nat
  keyField : String
  valueField : Option String
  deriving DecidableEq

structure SupportKeySchemaConfig where
  primaryKey : String
  rangeKey : Option String
  deriving DecidableEq

structure SupportDynamoDbTableConfig where
  localSecondaryIndexes : List DynamoDbLocalSecondaryIndexConfig
  globalSecondaryIndexes : List DynamoDbGlobalSecondaryIndexConfig
  deriving DecidableEq

structure SupportRedisTableConfig where
  database : Nat
  valueField : String
  deriving DecidableEq

structure SupportTableConfig where
  keySchema : SupportKeySchemaConfig
  elasticsearch : Option Unit
  dynamodb : Option SupportDynamoDbTableConfig
  redis : Option SupportRedisTableConfig
  deriving DecidableEq

/-- A request to create a table or to replace its description. -/
structure CreateTable where
  name : String
  tags : Dict String String := ∅
  serving : Option ServingTableConfig := none
  support : Option SupportTableConfig := none
  dynamodb : Option DynamoDbTableConfig := none
  mongodb : Option MongoDbTableConfig := none
  redis : Option RedisTableConfig := none

structure TableDescription where
  name : String
  tags : Dict String String := ∅
  serving : Option ServingTableConfig := none
  support : Option SupportTableConfig := none
  dynamodb : Option DynamoDbTableConfig := none
  mongodb : Option MongoDbTableConfig := none
  redis : Option RedisTableConfig := none

def TableDescription.fromCreateTable (c : CreateTable) : TableDescription :=
  ⟨c.name, c.tags, c.serving, c.support, c.dynamodb, c.mongodb, c.redis⟩

end PowdrrEngine
